/-
SecuritySystem/Manager/Session.lean

What a service client goes through, in every run.

The events of a backup or firewall client, from the first to the last, are the
start of one fixed list (`script`): it connects, sends its INIT, takes the
ACCEPT and starts.  Or the connection ends before the answer, and the client
with it (`cutShort`).  So a client sends one message and takes one answer at
most, it never sees a DENY, and it starts at most once (`reachable_session`).
-/
import SecuritySystem.Manager.Exchange

namespace SecuritySystem.Protocol

open SecuritySystem ServiceMessage Channel Function

variable {kind : ClientId → Option Service} {s s' : State} {T : List Event} {e : Event}
variable {i j : ClientId} {v : Service} {c : ConnId}

/-! ### Sessions -/

namespace Event

/-- The client whose event it is. -/
def client : Event → Option ClientId
  | .connected i _ | .sent i _ _ | .took i _ _ _ | .sawEof i _ | .started i => some i
  | .accepted _ | .forked _ _ | .received _ _ _ | .answered _ _ _ => none

/-- The event, if it is one of the client. -/
def ofClient (i : ClientId) (e : Event) : Option Event :=
  if e.client = some i then some e else none

end Event

/-- The events of the client, oldest first. -/
def session (i : ClientId) (T : List Event) : List Event := history (Event.ofClient i) T

/-- The answer that lets a client of the service start. -/
def Service.accept (v : Service) : ServiceMessage := v.sayHello.setSignal v.acceptSignal

/-- All that a client does on its way to `start`. -/
def script (v : Service) (i : ClientId) (c : ConnId) : List Event :=
  [.connected i c, .sent i c v.sayHello, .took i c v.accept (some i), .started i]

/-- The same where the connection ends before the answer. -/
def cutShort (v : Service) (i : ClientId) (c : ConnId) : List Event :=
  [.connected i c, .sent i c v.sayHello, .sawEof i c]

/-- How far the client has come. -/
def SessionOk (v : Service) (i : ClientId) (L : List Event) : ClientPhase → Prop
  | .idle => L = []
  | .connected c => L = [.connected i c]
  | .awaiting c => L = [.connected i c, .sent i c v.sayHello]
  | .deciding c answer => L = (script v i c).take 3 ∧ answer = v.accept ∨
      L = cutShort v i c ∧ answer = zero
  | .running c => L = script v i c
  | .finished => ∃ c, L <+: script v i c ∨ L = cutShort v i c

/-- In any phase the session is the start of a script. -/
theorem SessionOk.prefix_script {L : List Event} {ph : ClientPhase} (h : SessionOk v i L ph) :
    ∃ c, L <+: script v i c ∨ L = cutShort v i c := by
  cases ph with
  | idle =>
    obtain rfl : L = [] := h
    exact ⟨0, .inl List.nil_prefix⟩
  | connected c =>
    obtain rfl : L = _ := h
    exact ⟨c, .inl ⟨_, rfl⟩⟩
  | awaiting c =>
    obtain rfl : L = _ := h
    exact ⟨c, .inl ⟨_, rfl⟩⟩
  | deciding c answer =>
    rcases h with ⟨rfl, -⟩ | ⟨rfl, -⟩
    · exact ⟨c, .inl (List.take_prefix 3 _)⟩
    · exact ⟨c, .inr rfl⟩
  | running c =>
    obtain rfl : L = _ := h
    exact ⟨c, .inl List.prefix_rfl⟩
  | finished => exact h

theorem session_cons (he : e.client = some i) : session i (e :: T) = session i T ++ [e] :=
  history_cons_some (if_pos he)

theorem session_cons_of_ne (he : e.client ≠ some i) : session i (e :: T) = session i T :=
  history_cons_none (if_neg he)

/-- The answer to an INIT. -/
theorem answer_sayHello (v : Service) : answer v.sayHello = some v.accept := by
  rw [answer_of_isInit v.isInit_sayHello, Service.accept, v.acceptSignal_eq]

/-- Each service client is as far as its session. -/
def Sessions (kind : ClientId → Option Service) (s : State) : Prop :=
  ∀ i v, kind i = some v → SessionOk v i (session i s.trace) (s.clients i)

/-- What is no event of a service client. -/
theorem Sessions.still (h : Sessions kind s) (hclients : s'.clients = s.clients)
    (hT : s'.trace = s.trace ∨
      ∃ e, (∀ i v, kind i = some v → e.client ≠ some i) ∧ s'.trace = e :: s.trace) :
    Sessions kind s' := by
  intro i v hi
  rw [hclients]
  rcases hT with hT | ⟨e, he, hT⟩
  · rw [hT]
    exact h i v hi
  · rw [hT, session_cons_of_ne (he i v hi)]
    exact h i v hi

/-- An event of one client, with its new phase. -/
theorem Sessions.log {ph : ClientPhase} (h : Sessions kind s) (hi : kind i = some v)
    (he : e.client = some i) (hph : SessionOk v i (session i s.trace ++ [e]) ph)
    (hclients : s'.clients = update s.clients i ph) (hT : s'.trace = e :: s.trace) :
    Sessions kind s' := by
  intro j w hj
  rw [hT, hclients]
  by_cases hij : j = i
  · subst hij
    obtain rfl := Option.some.inj (hi.symm.trans hj)
    rw [update_self, session_cons he]
    exact hph
  · have hne : e.client ≠ some j := fun heq => hij (Option.some.inj (he.symm.trans heq)).symm
    rw [update_of_ne hij, session_cons_of_ne hne]
    exact h j w hj

/-- **Each step keeps the sessions.** -/
theorem Sessions.step (h : Sessions kind s) (hinv : Inv kind s) (hs : Step kind s s') :
    Sessions kind s' := by
  cases hs with
  | @accept p x sockfd fd c =>
    exact h.still rfl (.inr ⟨.accepted c, nofun, rfl⟩)
  | @forkChild p q x c => exact h.still rfl (.inr ⟨.forked q c, nofun, rfl⟩)
  | @read p x c k m =>
    exact h.still rfl (.inr ⟨.received p c (x.args.message.message.overlay m.message.bytes), nofun,
      rfl⟩)
  | @write p x c => exact h.still rfl (.inr ⟨.answered p c x.args.message.message, nofun, rfl⟩)
  | fork | closeNew | waited | readEof | die => exact h.still rfl (.inl rfl)
  | @connect i v c hi hph hc =>
    have hsession := h i v hi
    rw [hph] at hsession
    refine h.log (e := .connected i c) hi rfl ?_ rfl rfl
    rw [show session i s.trace = [] from hsession]
    rfl
  | @sayHello i v c k hi hph hc =>
    have hsession := h i v hi
    rw [hph] at hsession
    refine h.log (e := .sent i c v.sayHello) hi rfl ?_ rfl rfl
    rw [show session i s.trace = _ from hsession]
    rfl
  | @takeReply i v c k r rest hi hph hc hr =>
    have hsession := h i v hi
    rw [hph] at hsession
    -- the reply in front answers the only message this client has sent
    have hcl := hinv.clients i
    rw [hph] at hcl
    obtain rfl : k.owner = i := hinv.owner_eq hc hcl.2
    obtain ⟨ho, p, m, ha⟩ := (hinv.conns c k hc).toClient r (hr ▸ List.mem_cons_self)
    obtain rfl : m = v.sayHello := hinv.sent k.owner c m v (ha.asked.subset (by simp)) hi
    have hr : r.message = v.accept :=
      Option.some.inj (ha.answer.symm.trans (answer_sayHello v))
    refine h.log (e := .took k.owner c r.message r.origin) hi rfl ?_ rfl rfl
    rw [show session k.owner s.trace = _ from hsession, hr, ho]
    exact .inl ⟨rfl, overlay_whole ..⟩
  | @takeEof i v c k hi hph hc hr hacc hheld =>
    have hsession := h i v hi
    rw [hph] at hsession
    refine h.log (e := .sawEof i c) hi rfl ?_ rfl rfl
    rw [show session i s.trace = _ from hsession]
    exact .inr ⟨rfl, rfl⟩
  | @start i v c ans hi hph hans =>
    have hsession := h i v hi
    rw [hph] at hsession
    refine h.log (e := .started i) hi rfl ?_ rfl rfl
    rcases hsession with ⟨hL, -⟩ | ⟨-, rfl⟩
    · rw [hL]
      rfl
    · -- the zeroed object holds no ACCEPT
      rw [zero_signal, v.acceptSignal_eq] at hans
      exact absurd hans (by decide)
  | @close i c k hc hk =>
    intro j w hj
    show SessionOk w j (session j s.trace) (update s.clients i .finished j)
    rw [update_apply]
    split
    · exact (h j w hj).prefix_script
    · exact h j w hj
  | @otherConnect i c hi =>
    refine h.still rfl (.inr ⟨.connected i c, fun j w hj hij => ?_, rfl⟩)
    rw [← Option.some.inj hij, hi] at hj
    cases hj
  | @otherSend i c k m hi =>
    refine h.still rfl (.inr ⟨.sent i c m, fun j w hj hij => ?_, rfl⟩)
    rw [← Option.some.inj hij, hi] at hj
    cases hj
  | @otherTake i c k r rest hi =>
    refine h.still rfl (.inr ⟨.took i c r.message r.origin, fun j w hj hij => ?_, rfl⟩)
    rw [← Option.some.inj hij, hi] at hj
    cases hj

/-- **A service client has one session**, in every run: its events are the
start of the script, or those of a session that was cut short. -/
theorem reachable_session (h : Reachable kind s) (hi : kind i = some v) :
    ∃ c, session i s.trace <+: script v i c ∨ session i s.trace = cutShort v i c := by
  have hsessions : Sessions kind s := by
    obtain ⟨sockfd, args, hrun⟩ := h
    induction hrun with
    | refl => exact fun i v hi => rfl
    | tail hprev hstep ih => exact ih.step (Reachable.inv ⟨sockfd, args, hprev⟩) hstep
  exact (hsessions i v hi).prefix_script

theorem reachable_session_backup :
    ∃ s c, Reachable (fun _ => some .backup) s ∧ .started 0 ∈ s.trace ∧
      (session 0 s.trace <+: script .backup 0 c ∨ session 0 s.trace = cutShort .backup 0 c) := by
  obtain ⟨s, hs, hst⟩ := exists_started .backup
  obtain ⟨c, hc⟩ := reachable_session hs rfl
  exact ⟨s, c, hs, hst, hc⟩

end SecuritySystem.Protocol
