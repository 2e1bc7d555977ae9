/-
SecuritySystem/Manager/Progress.lean

The manager always gets on.

While `main` lives, a service client that has not connected yet can be let in,
whatever has happened before: the waiting connections are accepted, in any
order, and the client's behind them (`reachable_can_start`).  Nobody else has
to move for it.  A client that sends nothing or never reads holds up the
process for its own connection, and no other one.

The reason is that `main` is never far from its next `accept`, with the
listening descriptor and nothing else open (`MainOk`); numbers for processes
and connections do not run out, since a run has used finitely many
(`Bounded`).
-/
import SecuritySystem.Manager.Session

namespace SecuritySystem.Protocol

open SecuritySystem ServiceMessage Channel Function Relation

variable {kind : ClientId → Option Service} {s s' t : State} {i : ClientId} {v : Service}
variable {p q : Pid} {x y : Proc} {c d : ConnId} {k : Conn}

section Lookup

variable (s) (x) (p) (k) (c) (i)

@[simp] theorem procs_setProc_self : (s.setProc p x).procs p = some x := update_self ..
@[simp] theorem conns_setConn_self : (s.setConn c k).conns c = some k := update_self ..
@[simp] theorem clients_setClient_self (ph : ClientPhase) : (s.setClient i ph).clients i = ph :=
  update_self ..

variable {s x p k c i}

theorem procs_setProc_of_ne (h : q ≠ p) : (s.setProc p x).procs q = s.procs q :=
  update_of_ne h ..

theorem conns_setConn_of_ne (h : d ≠ c) : (s.setConn c k).conns d = s.conns d :=
  update_of_ne h ..

end Lookup

/-! ### Where `main` is -/

/-- The descriptors of a process that has the listening socket, and no other. -/
def onlyListener (sockfd : Fd) : Fd → Option File :=
  fun fd => if fd = sockfd then some .listener else none

@[simp] theorem onlyListener_self (sockfd : Fd) : onlyListener sockfd sockfd = some .listener :=
  if_pos rfl

theorem onlyListener_of_ne {sockfd fd : Fd} (h : fd ≠ sockfd) : onlyListener sockfd fd = none :=
  if_neg h

/-- `main` in front of `accept`. -/
structure Ready (x : Proc) : Prop where
  phase : x.phase = .accepting
  fds : ∃ sockfd, x.fds = onlyListener sockfd

/-- `main` on its way back to `accept`, with one connection at hand. -/
structure Busy (x : Proc) : Prop where
  phase : x.phase = .forking ∨ x.phase = .closing
  fds : ∃ sockfd c, x.args.newsockfd ≠ sockfd ∧
    x.fds = update (onlyListener sockfd) x.args.newsockfd (some (.conn c))

/-- The process 0 is `main`. -/
def MainOk (s : State) : Prop :=
  ∃ x, s.procs 0 = some x ∧ (Ready x ∨ Busy x ∨ x.phase = .exited)

/-- From some number on there are no processes and no connections. -/
def Bounded (s : State) : Prop := ∃ n, ∀ m, n ≤ m → s.procs m = none ∧ s.conns m = none

/-- The descriptor of the connection is closed again. -/
theorem update_onlyListener {sockfd fd : Fd} (h : fd ≠ sockfd) (f : Option File) :
    update (update (onlyListener sockfd) fd f) fd none = onlyListener sockfd := by
  rw [update_idem]
  refine update_eq_self_iff.mpr ?_
  rw [onlyListener_of_ne h]

section Main

variable (h : MainOk s)

include h

theorem MainOk.same (hs : s'.procs 0 = s.procs 0) : MainOk s' := by
  obtain ⟨x, hx, hok⟩ := h
  exact ⟨x, hs.trans hx, hok⟩

/-- A process that is not `main`. -/
theorem MainOk.other (hp : p ≠ 0) : MainOk (s.setProc p y) := h.same (procs_setProc_of_ne hp.symm)

theorem MainOk.fresh_ne (hq : s.procs q = none) : q ≠ 0 := by
  obtain ⟨x, hx, -⟩ := h
  rintro rfl
  rw [hq] at hx
  cases hx

theorem MainOk.main (hx : s.procs 0 = some x) : Ready x ∨ Busy x ∨ x.phase = .exited := by
  obtain ⟨y, hy, hok⟩ := h
  obtain rfl := Option.some.inj (hx.symm.trans hy)
  exact hok

/-- The phases that `main` is never in are those of the other processes. -/
theorem MainOk.ne_of_phase (hp : s.procs p = some x) (hph : x.phase = .forkingChild ∨
    x.phase = .reading ∨ x.phase = .writing ∨ ∃ q, x.phase = .waiting q) : p ≠ 0 := by
  rintro rfl
  rcases h.main hp with ⟨hmain, -⟩ | ⟨hmain | hmain, -⟩ | hmain <;> rw [hmain] at hph <;>
    simp at hph

end Main

theorem mainOk_setProc (hx : Ready x ∨ Busy x ∨ x.phase = .exited) : MainOk (s.setProc 0 x) :=
  ⟨x, procs_setProc_self .., hx⟩

/-- `main` behind `accept`. -/
def Proc.accepted (x : Proc) (sockfd fd : Fd) (c : ConnId) : Proc where
  phase := .forking
  fds := update x.fds fd (some (.conn c))
  args := { x.args with sockfd := sockfd, newsockfd := fd }

/-- `accept` uses a free descriptor. -/
theorem Ready.accept (hx : Ready x) {sockfd fd : Fd} (hfd : x.fds fd = none) :
    Busy (x.accepted sockfd fd c) where
  phase := .inl rfl
  fds := by
    obtain ⟨L, hfds⟩ := hx.fds
    refine ⟨L, c, ?_, ?_⟩
    · show fd ≠ L
      rintro rfl
      rw [hfds, onlyListener_self] at hfd
      cases hfd
    · show update x.fds fd _ = update (onlyListener L) fd _
      rw [hfds]

/-- `close(newsockfd)` leaves the listening socket. -/
theorem Busy.close (hx : Busy x) :
    Ready { x with phase := .accepting, fds := update x.fds x.args.newsockfd none } where
  phase := rfl
  fds := by
    obtain ⟨L, c, hne, hfds⟩ := hx.fds
    refine ⟨L, ?_⟩
    show update x.fds x.args.newsockfd none = _
    rw [hfds, update_onlyListener hne]

theorem MainOk.step (h : MainOk s) (hs : Step kind s s') : MainOk s' := by
  cases hs with
  | @accept p x sockfd fd c k hp hph hsock hfd hc hk =>
    by_cases hzero : p = 0
    · subst hzero
      rcases h.main hp with hready | ⟨hbusy | hbusy, -⟩ | hexit
      · exact mainOk_setProc (.inr (.inl (hready.accept hfd)))
      all_goals simp_all
    · refine MainOk.other ?_ hzero
      exact h.same rfl
  | @fork p q x hp hph hq =>
    refine MainOk.other ?_ (h.fresh_ne hq)
    by_cases hzero : p = 0
    · subst hzero
      rcases h.main hp with ⟨hready, -⟩ | hbusy | hexit
      · simp [hph] at hready
      · exact mainOk_setProc (.inr (.inl ⟨.inr rfl, hbusy.fds⟩))
      · simp [hph] at hexit
    · exact h.other hzero
  | @closeNew p x hp hph =>
    by_cases hzero : p = 0
    · subst hzero
      rcases h.main hp with ⟨hready, -⟩ | hbusy | hexit
      · simp [hph] at hready
      · exact mainOk_setProc (.inl hbusy.close)
      · simp [hph] at hexit
    · exact h.other hzero
  | @forkChild p q x c hp hph hfd hq =>
    refine MainOk.other ?_ (h.fresh_ne hq)
    exact MainOk.other (h.same rfl) (h.ne_of_phase hp (.inl hph))
  | waited hp hph => exact h.other (h.ne_of_phase hp (.inr (.inr (.inr ⟨_, hph⟩))))
  | read hp hph =>
    refine MainOk.other ?_ (h.ne_of_phase hp (.inr (.inl hph)))
    exact h.same rfl
  | write hp hph =>
    refine MainOk.other ?_ (h.ne_of_phase hp (.inr (.inr (.inl hph))))
    exact h.same rfl
  | readEof hp hph => exact h.other (h.ne_of_phase hp (.inr (.inl hph)))
  | @die p x hp =>
    by_cases hzero : p = 0
    · subst hzero
      exact mainOk_setProc (.inr (.inr rfl))
    · exact h.other hzero
  | _ => exact h.same rfl

/-! ### Numbers do not run out -/

theorem Bounded.setProc (h : Bounded s) : Bounded (s.setProc p x) := by
  obtain ⟨n, hn⟩ := h
  refine ⟨max n (p + 1), fun m hm => ?_⟩
  obtain ⟨hproc, hconn⟩ := hn m ((Nat.le_max_left ..).trans hm)
  refine ⟨(procs_setProc_of_ne ?_).trans hproc, hconn⟩
  exact (Nat.lt_of_succ_le ((Nat.le_max_right ..).trans hm)).ne'

theorem Bounded.setConn (h : Bounded s) : Bounded (s.setConn c k) := by
  obtain ⟨n, hn⟩ := h
  refine ⟨max n (c + 1), fun m hm => ?_⟩
  obtain ⟨hproc, hconn⟩ := hn m ((Nat.le_max_left ..).trans hm)
  refine ⟨hproc, (conns_setConn_of_ne ?_).trans hconn⟩
  exact (Nat.lt_of_succ_le ((Nat.le_max_right ..).trans hm)).ne'

theorem Bounded.same (h : Bounded s) (hprocs : s'.procs = s.procs) (hconns : s'.conns = s.conns) :
    Bounded s' := by
  obtain ⟨n, hn⟩ := h
  exact ⟨n, fun m hm => by rw [hprocs, hconns]; exact hn m hm⟩

theorem Bounded.step (h : Bounded s) (hs : Step kind s s') : Bounded s' := by
  have hlog : ∀ e, Bounded (s.log e) := fun e => h.same rfl rfl
  cases hs with
  | accept | read | write => exact (hlog _).setConn.setProc
  | fork => exact h.setProc.setProc
  | closeNew | waited | readEof | die => exact h.setProc
  | forkChild => exact (hlog _).setProc.setProc
  | connect | sayHello | takeReply => exact (hlog _).setConn.same rfl rfl
  | takeEof | start => exact h.same rfl rfl
  | close => exact h.setConn.same rfl rfl
  | otherConnect | otherSend | otherTake => exact (hlog _).setConn

theorem Reachable.main (h : Reachable kind s) : MainOk s ∧ Bounded s := by
  obtain ⟨sockfd, args, hrun⟩ := h
  induction hrun with
  | refl =>
    refine ⟨⟨⟨.accepting, onlyListener sockfd, args⟩, rfl, .inl ⟨rfl, sockfd, rfl⟩⟩, 1,
      fun m hm => ⟨if_neg ?_, rfl⟩⟩
    exact (Nat.lt_of_succ_le hm).ne'
  | tail _ hstep ih => exact ⟨ih.1.step hstep, ih.2.step hstep⟩

/-! ### One turn of `main` -/

/-- The connection that `main` has accepted. -/
def Event.acceptedConn : Event → Option ConnId
  | .accepted c => some c
  | _ => none

/-- The connections that `accept` has returned, oldest first. -/
def accepts (T : List Event) : List ConnId := history Event.acceptedConn T

/-- `main` comes back to `accept`; what it has at hand is left to a child. -/
structure Back (s s' : State) (x : Proc) (q : Pid) : Prop where
  ready : ∃ y, s'.procs 0 = some y ∧ Ready y
  child : x.phase = .forking → s'.procs q = some { x with phase := .forkingChild }
  procs : ∀ p, p ≠ 0 → p ≠ q → s'.procs p = s.procs p
  conns : s'.conns = s.conns
  clients : s'.clients = s.clients
  trace : s'.trace = s.trace

theorem main_close (kind : ClientId → Option Service) (hx : s.procs 0 = some x) (hbusy : Busy x)
    (hph : x.phase = .closing) (q : Pid) :
    ∃ s', ReflTransGen (Step kind) s s' ∧ Back s s' x q := by
  refine ⟨_, .single (.closeNew hx hph), ⟨_, procs_setProc_self .., hbusy.close⟩, ?_, ?_, rfl, rfl,
    rfl⟩
  · rw [hph]
    exact nofun
  · exact fun p hp _ => procs_setProc_of_ne hp

theorem main_back (kind : ClientId → Option Service) (hx : s.procs 0 = some x) (hbusy : Busy x)
    (hq : s.procs q = none) (hne : q ≠ 0) :
    ∃ s', ReflTransGen (Step kind) s s' ∧ Back s s' x q := by
  rcases hbusy.phase with hph | hph
  · -- the fork comes first
    have hfork : Step kind s ((s.setProc 0 { x with phase := .closing }).setProc q
        { x with phase := .forkingChild }) := .fork hx hph hq
    have hx' : ((s.setProc 0 { x with phase := .closing }).setProc q
        { x with phase := .forkingChild }).procs 0 = some { x with phase := .closing } := by
      rw [procs_setProc_of_ne hne.symm, procs_setProc_self]
    obtain ⟨s', hrun, hback⟩ := main_close kind hx' ⟨.inr rfl, hbusy.fds⟩ rfl 0
    refine ⟨s', .head hfork hrun, hback.ready, fun _ => ?_, fun p hp hpq => ?_, hback.conns,
      hback.clients, hback.trace⟩
    · rw [hback.procs q hne hne, procs_setProc_self]
    · rw [hback.procs p hp hp, procs_setProc_of_ne hpq, procs_setProc_of_ne hp]
  · exact main_close kind hx hbusy hph q

/-- From one `accept` to the next: a child has the connection. -/
structure Turn (s s' : State) (c : ConnId) (k : Conn) (q : Pid) : Prop where
  ready : ∃ x, s'.procs 0 = some x ∧ Ready x
  child : ∃ y, s'.procs q = some y ∧ y.phase = .forkingChild ∧
    y.fds y.args.newsockfd = some (.conn c)
  procs : ∀ p, p ≠ 0 → p ≠ q → s'.procs p = s.procs p
  conn : s'.conns c = some { k with accepted := true }
  conns : ∀ d, d ≠ c → s'.conns d = s.conns d
  clients : s'.clients = s.clients
  accepts : accepts s'.trace = accepts s.trace ++ [c]

/-- `main` accepts any connection that waits. -/
theorem main_turn (kind : ClientId → Option Service) (hx : s.procs 0 = some x) (hready : Ready x)
    (hc : s.conns c = some k) (hk : k.accepted = false) (hq : s.procs q = none) (hne : q ≠ 0) :
    ∃ s', ReflTransGen (Step kind) s s' ∧ Turn s s' c k q := by
  obtain ⟨L, hL⟩ := hready.fds
  have hsock : x.fds L = some .listener := by simp [hL]
  have hfree : x.fds (L + 1) = none := by
    rw [hL]
    exact onlyListener_of_ne (Nat.succ_ne_self L)
  have haccept : Step kind s (((s.log (.accepted c)).setConn c { k with accepted := true }).setProc
      0 (x.accepted L (L + 1) c)) := .accept hx hready.phase hsock hfree hc hk
  have hx' := procs_setProc_self ((s.log (.accepted c)).setConn c { k with accepted := true }) 0
    (x.accepted L (L + 1) c)
  obtain ⟨s', hrun, hback⟩ := main_back kind hx' (hready.accept hfree)
    ((procs_setProc_of_ne hne).trans hq) hne
  refine ⟨s', .head haccept hrun, hback.ready, ⟨_, hback.child rfl, rfl, update_self ..⟩, ?_, ?_,
    ?_, hback.clients, ?_⟩
  · exact fun p hp hpq => (hback.procs p hp hpq).trans (procs_setProc_of_ne hp)
  · rw [hback.conns]
    exact conns_setConn_self ..
  · intro d hd
    rw [hback.conns]
    exact conns_setConn_of_ne hd
  · have hcons : accepts (.accepted c :: s.trace) = accepts s.trace ++ [c] := history_cons_some rfl
    rw [hback.trace]
    exact hcons

/-! ### The connections that wait -/

theorem Bounded.run (h : Bounded s) (hrun : ReflTransGen (Step kind) s s') : Bounded s' := by
  induction hrun with
  | refl => exact h
  | tail _ hstep ih => exact ih.step hstep

/-- There is a free number, and it is not that of `main`. -/
theorem Bounded.fresh (h : Bounded s) : ∃ n, n ≠ 0 ∧ s.procs n = none ∧ s.conns n = none := by
  obtain ⟨n, hn⟩ := h
  obtain ⟨hproc, hconn⟩ := hn (n + 1) (Nat.le_succ n)
  exact ⟨n + 1, Nat.succ_ne_zero n, hproc, hconn⟩

/-- Processes and clients that were there are where they were. -/
structure Aside (s s' : State) : Prop where
  procs : ∀ p, p ≠ 0 → s.procs p ≠ none → s'.procs p = s.procs p
  clients : s'.clients = s.clients

theorem Aside.trans (h : Aside s t) (h' : Aside t s') : Aside s s' where
  procs p hp hne := by
    have hst := h.procs p hp hne
    exact (h'.procs p hp (hst ▸ hne)).trans hst
  clients := h'.clients.trans h.clients

theorem Turn.aside (h : Turn s s' c k q) (hq : s.procs q = none) : Aside s s' where
  procs p hp hne := by
    refine h.procs p hp ?_
    rintro rfl
    exact hne hq
  clients := h.clients

theorem Back.aside (h : Back s s' x q) (hq : s.procs q = none) : Aside s s' where
  procs p hp hne := by
    refine h.procs p hp ?_
    rintro rfl
    exact hne hq
  clients := h.clients

/-- While `main` lives, it comes to its next `accept`. -/
theorem MainOk.exists_ready (h : MainOk s) (kind : ClientId → Option Service)
    (hbounded : Bounded s) (hmain : ∃ x, s.procs 0 = some x ∧ x.phase ≠ .exited) :
    ∃ s', ReflTransGen (Step kind) s s' ∧ (∃ x, s'.procs 0 = some x ∧ Ready x) ∧ Aside s s' ∧
      s'.conns = s.conns ∧ accepts s'.trace = accepts s.trace := by
  obtain ⟨x, hx, hne⟩ := hmain
  rcases h.main hx with hready | hbusy | hexit
  · exact ⟨s, .refl, ⟨x, hx, hready⟩, ⟨fun _ _ _ => rfl, rfl⟩, rfl, rfl⟩
  · obtain ⟨q, hq0, hq, -⟩ := hbounded.fresh
    obtain ⟨s', hrun, hback⟩ := main_back kind hx hbusy hq hq0
    exact ⟨s', hrun, hback.ready, hback.aside hq, hback.conns, congrArg accepts hback.trace⟩
  · exact absurd hexit hne

/-- `main` accepts any of the waiting connections, in any order. -/
theorem main_turns (kind : ClientId → Option Service) {l : List ConnId} (hl : l.Nodup)
    (hmain : ∃ x, s.procs 0 = some x ∧ Ready x) (hbounded : Bounded s)
    (hwait : ∀ c ∈ l, ∃ k, s.conns c = some k ∧ k.accepted = false) :
    ∃ s', ReflTransGen (Step kind) s s' ∧ (∃ x, s'.procs 0 = some x ∧ Ready x) ∧ Aside s s' ∧
      (∀ d, d ∉ l → s'.conns d = s.conns d) ∧ accepts s'.trace = accepts s.trace ++ l := by
  induction l generalizing s with
  | nil =>
    exact ⟨s, .refl, hmain, ⟨fun _ _ _ => rfl, rfl⟩, fun _ _ => rfl, (List.append_nil _).symm⟩
  | cons c l ih =>
    obtain ⟨x, hx, hready⟩ := hmain
    obtain ⟨k, hc, hk⟩ := hwait c List.mem_cons_self
    obtain ⟨q, hne, hq, -⟩ := hbounded.fresh
    obtain ⟨hcl, hl⟩ := List.nodup_cons.mp hl
    obtain ⟨t, hrun, hturn⟩ := main_turn kind hx hready hc hk hq hne
    -- the others wait as before
    have hwait' : ∀ d ∈ l, ∃ k, t.conns d = some k ∧ k.accepted = false := by
      intro d hd
      rw [hturn.conns d fun h => hcl (h ▸ hd)]
      exact hwait d (List.mem_cons_of_mem c hd)
    obtain ⟨s', hrun', hmain', haside, hconns, haccepts⟩ :=
      ih hl hturn.ready (hbounded.run hrun) hwait'
    refine ⟨s', hrun.trans hrun', hmain', (hturn.aside hq).trans haside, fun d hd => ?_, ?_⟩
    · obtain ⟨hdc, hdl⟩ := not_or.mp (mt List.mem_cons.mpr hd)
      rw [hconns d hdl, hturn.conns d hdc]
    · rw [haccepts, hturn.accepts, List.append_assoc]
      rfl

/-! ### One client is let in -/

/-- The child forks its own child, which answers the client. -/
theorem served (hi : kind i = some v) (hci : s.clients i = .connected c)
    (hp : s.procs p = some y) (hph : y.phase = .forkingChild)
    (hfd : y.fds y.args.newsockfd = some (.conn c))
    (hc : s.conns c = some { Conn.fresh i with accepted := true }) (hq : s.procs q = none) :
    ∃ s', ReflTransGen (Step kind) s s' ∧ .started i ∈ s'.trace ∧
      (∀ j, j ≠ i → s'.clients j = s.clients j) ∧
      (∀ r, r ≠ p → r ≠ q → s'.procs r = s.procs r) ∧ accepts s'.trace = accepts s.trace := by
  have hpq : p ≠ q := by
    rintro rfl
    rw [hq] at hp
    cases hp
  -- the second fork, and the INIT of the client
  let y₁ : Proc := { y with phase := .reading }
  let s₁ := ((s.log (.forked q c)).setProc p { y with phase := .waiting q }).setProc q y₁
  have h₁ : Step kind s s₁ := .forkChild hp hph hfd hq
  let init : Packet := ⟨v.sayHello, some i⟩
  let k₂ : Conn := { Conn.fresh i with toServer := [init], accepted := true }
  let s₂ := ((s₁.log (.sent i c v.sayHello)).setConn c k₂).setClient i (.awaiting c)
  have h₂ : Step kind s₁ s₂ := @Step.sayHello kind s₁ i v c _ hi hci hc
  -- it is read and answered
  let reply : Packet := ⟨v.sayHello.setSignal 2, some i⟩
  let y₃ : Proc := { y₁ with phase := .writing, args.message := reply }
  let k₃ : Conn := { k₂ with toServer := [] }
  let s₃ := ((s₂.log (.received q c v.sayHello)).setConn c k₃).setProc q y₃
  have h₃ : Step kind s₂ s₃ := by
    have hread := @Step.read kind s₂ q y₁ c k₂ init [] (procs_setProc_self ..) rfl hfd
      (conns_setConn_self ..) rfl
    rwa [overlay_whole, Proc.receive_of_isInit v.isInit_sayHello] at hread
  let k₄ : Conn := { k₃ with toClient := [reply] }
  let s₄ := ((s₃.log (.answered q c reply.message)).setConn c k₄).setProc q
    { y₃ with phase := .reading }
  have hc₃ : s₃.conns c = some k₃ := update_self ..
  have h₄ : Step kind s₃ s₄ := @Step.write kind s₃ q y₃ c k₃ (procs_setProc_self ..) rfl hfd hc₃
  -- the client takes the answer
  let s₅ := ((s₄.log (.took i c reply.message reply.origin)).setConn c { k₄ with toClient := [] })
    |>.setClient i (.deciding c (zero.overlay reply.message.bytes))
  have hci₄ : s₄.clients i = .awaiting c := update_self ..
  have hc₄ : s₄.conns c = some k₄ := update_self ..
  have h₅ : Step kind s₄ s₅ := @Step.takeReply kind s₄ i v c k₄ reply [] hi hci₄ hc₄ rfl
  have hans : (zero.overlay reply.message.bytes).signal = v.acceptSignal := by
    rw [overlay_whole]
    show (v.sayHello.setSignal 2).signal = _
    rw [signal_setSignal, v.acceptSignal_eq]
  have h₆ : Step kind s₅ ((s₅.log (.started i)).setClient i (.running c)) :=
    .start hi (clients_setClient_self ..) hans
  refine ⟨_, .head h₁ (.head h₂ (.head h₃ (.head h₄ (.head h₅ (.single h₆))))),
    List.mem_cons_self, fun j hj => ?_, fun r hrp hrq => ?_, ?_⟩
  · show update (update (update s.clients i _) i _) i _ j = s.clients j
    simp only [update_of_ne hj]
  · show update (update (update (update s.procs p _) q _) q _) q _ r = s.procs r
    simp only [update_of_ne hrq, update_of_ne hrp]
  · rfl

/-- **Whoever has not connected yet can be let in.**  In every run in which
`main` lives, the waiting connections can be accepted, in any order, and the
client's behind them, and the client starts; no other client and no process
but `main` has to do anything. -/
theorem reachable_can_start (h : Reachable kind s) (hi : kind i = some v)
    (hidle : s.clients i = .idle) (hmain : ∃ x, s.procs 0 = some x ∧ x.phase ≠ .exited)
    {l : List ConnId} (hl : l.Nodup)
    (hwait : ∀ c ∈ l, ∃ k, s.conns c = some k ∧ k.accepted = false) :
    ∃ c s', ReflTransGen (Step kind) s s' ∧ .started i ∈ s'.trace ∧
      accepts s'.trace = accepts s.trace ++ l ++ [c] ∧
      (∀ j, j ≠ i → s'.clients j = s.clients j) ∧
      ∀ p, p ≠ 0 → s.procs p ≠ none → s'.procs p = s.procs p := by
  obtain ⟨hok, hbounded⟩ := h.main
  obtain ⟨s₀, hrun₀, hmain₀, haside₀, hconns₀, haccepts₀⟩ := hok.exists_ready kind hbounded hmain
  -- the client connects, and is the last one to wait
  obtain ⟨c, -, -, hc⟩ := (hbounded.run hrun₀).fresh
  let s₁ := ((s₀.log (.connected i c)).setConn c (.fresh i)).setClient i (.connected c)
  have hi₀ : s₀.clients i = .idle := by rw [haside₀.clients, hidle]
  have h₁ : Step kind s₀ s₁ := .connect hi hi₀ hc
  have hcl : c ∉ l := by
    intro hmem
    obtain ⟨k, hk, -⟩ := hwait c hmem
    rw [← hconns₀, hc] at hk
    cases hk
  have hwait₁ : ∀ d ∈ l, ∃ k, s₁.conns d = some k ∧ k.accepted = false := by
    intro d hd
    have hne : d ≠ c := by
      rintro rfl
      exact hcl hd
    obtain ⟨k, hk, hacc⟩ := hwait d hd
    refine ⟨k, ?_, hacc⟩
    rw [← hk, ← hconns₀]
    exact update_of_ne hne ..
  have hbounded₁ : Bounded s₁ := (hbounded.run hrun₀).step h₁
  have hmain₁ : ∃ x, s₁.procs 0 = some x ∧ Ready x := hmain₀
  obtain ⟨s₂, hrun₂, ⟨x, hx, hready⟩, haside₂, hconns₂, haccepts₂⟩ :=
    main_turns kind hl hmain₁ hbounded₁ hwait₁
  have hc₂ : s₂.conns c = some (.fresh i) := (hconns₂ c hcl).trans (update_self ..)
  obtain ⟨p, hpne, hp, -⟩ := (hbounded₁.run hrun₂).fresh
  obtain ⟨s₃, hrun₃, hturn⟩ := main_turn kind hx hready hc₂ rfl hp hpne
  obtain ⟨y, hy, hph, hfd⟩ := hturn.child
  obtain ⟨q, -, hq, -⟩ := ((hbounded₁.run hrun₂).run hrun₃).fresh
  have hci : s₃.clients i = .connected c := by
    rw [hturn.clients, haside₂.clients]
    exact update_self ..
  obtain ⟨s', hrun', hstarted, hclients', hprocs', haccepts'⟩ :=
    served hi hci hy hph hfd hturn.conn hq
  refine ⟨c, s', ?_, hstarted, ?_, fun j hj => ?_, fun r hr hne => ?_⟩
  · exact hrun₀.trans (.head h₁ (hrun₂.trans (hrun₃.trans hrun')))
  · have hsame : accepts s₁.trace = accepts s₀.trace := history_cons_none rfl
    rw [haccepts', hturn.accepts, haccepts₂, hsame, haccepts₀]
  · rw [hclients' j hj, hturn.clients, haside₂.clients]
    exact (update_of_ne hj ..).trans (congrFun haside₀.clients j)
  · have hr₀ : s₁.procs r = s.procs r := haside₀.procs r hr hne
    have hr₃ : s₃.procs r = s.procs r :=
      ((haside₂.trans (hturn.aside hp)).procs r hr (hr₀ ▸ hne)).trans hr₀
    refine (hprocs' r ?_ ?_).trans hr₃
    · -- the two new processes were not there
      rintro rfl
      rw [← hr₀, ← haside₂.procs r hr (hr₀ ▸ hne)] at hne
      exact hne hp
    · rintro rfl
      rw [← hr₃] at hne
      exact hne hq

/-- Client 1 is being served, and client 2 waits: client 0 is let in behind
them, and the process that serves client 1 does not move. -/
theorem reachable_can_start_third :
    ∃ s c s', Reachable (fun _ => some .backup) s ∧
      ReflTransGen (Step fun _ => some .backup) s s' ∧ .started 0 ∈ s'.trace ∧
      accepts s'.trace = [0, 1, c] ∧ (∃ x, s'.procs 2 = some x ∧ x.phase = .writing) ∧
      s'.clients 1 = .awaiting 0 ∧ s'.clients 2 = .connected 1 := by
  have h0 : Reachable (fun _ => some .backup) (init 3 ⟨0, 0, ⟨zero, none⟩⟩) := ⟨3, _, .refl⟩
  have h1 := h0.step (.connect (i := 1) (c := 0) rfl rfl rfl)
  have h2 := h1.step (.connect (i := 2) (c := 1) rfl rfl rfl)
  have h3 := h2.step (@Step.accept _ _ 0 _ 3 4 0 _ rfl rfl rfl rfl rfl rfl)
  have h4 := h3.step (.fork (p := 0) (q := 1) rfl rfl rfl)
  have h5 := h4.step (.forkChild (p := 1) (q := 2) (c := 0) rfl rfl rfl rfl)
  have h6 := h5.step (.sayHello (i := 1) (c := 0) rfl rfl rfl)
  have h7 := h6.step (.read (p := 2) (c := 0) rfl rfl rfl rfl rfl)
  rw [Proc.receive_of_isInit Service.backup.isInit_sayHello] at h7
  -- `main` still has to close its copy of the descriptor
  obtain ⟨c, s', hrun, hstarted, haccepts, hclients, hprocs⟩ :=
    reachable_can_start (i := 0) (l := [1]) h7 rfl rfl ⟨_, rfl, nofun⟩ (by decide)
      fun d hd => by
        obtain rfl := List.mem_singleton.mp hd
        exact ⟨_, rfl, rfl⟩
  refine ⟨_, c, s', h7, hrun, hstarted, haccepts, ?_, ?_, ?_⟩
  · rw [hprocs 2 (by decide) nofun]
    exact ⟨_, rfl, rfl⟩
  · exact hclients 1 (by decide)
  · exact hclients 2 (by decide)

end SecuritySystem.Protocol
