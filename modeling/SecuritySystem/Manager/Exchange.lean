/-
SecuritySystem/Manager/Exchange.lean

What is exchanged on a connection, in every run of the manager and its
clients.

Both directions of a connection keep their order (`Flows`).  On the manager's
side a connection goes through four stages (`Stage`): it waits to be accepted,
it is handed on by two forks, it is served by one process, and nobody has it
any more.  At each time at most one process is there for it, so what is
received on it is answered by one process, in order, each message once.

`reachable_exchange` says so for all connections, whoever opened them and
whatever is sent.
-/
import SecuritySystem.Lib.Channel
import SecuritySystem.Manager.ProtocolSafety
import Mathlib.Data.Set.Insert

namespace SecuritySystem.Protocol

open SecuritySystem ServiceMessage Channel Function

variable {kind : ClientId → Option Service} {s s' : State} {T : List Event} {e : Event}
variable {p q : Pid} {x y : Proc} {i : ClientId} {c d : ConnId} {k : Conn}

/-! ### What happened on a connection -/

namespace Event

/-- The message that a client has sent on the connection. -/
def sentOn (c : ConnId) : Event → Option ServiceMessage
  | .sent _ d m => if d = c then some m else none
  | _ => none

/-- The message that the manager has read from it. -/
def receivedOn (c : ConnId) : Event → Option ServiceMessage
  | .received _ d m => if d = c then some m else none
  | _ => none

/-- The message that the manager has written to it. -/
def answeredOn (c : ConnId) : Event → Option ServiceMessage
  | .answered _ d r => if d = c then some r else none
  | _ => none

/-- The message that the client has read from it. -/
def takenOn (c : ConnId) : Event → Option ServiceMessage
  | .took _ d r _ => if d = c then some r else none
  | _ => none

/-- The process that was forked to serve the connection. -/
def forkedFor (c : ConnId) : Event → Option Pid
  | .forked p d => if d = c then some p else none
  | _ => none

/-- The connection that the event is about. -/
def conn : Event → Option ConnId
  | .connected _ c | .sent _ c _ | .accepted c | .forked _ c | .received _ c _ | .answered _ c _
  | .took _ c _ _ | .sawEof _ c => some c
  | .started _ => none

/-- On any other connection it is not seen. -/
theorem unseen (h : e.conn ≠ some c) : e.sentOn c = none ∧ e.receivedOn c = none ∧
    e.answeredOn c = none ∧ e.takenOn c = none ∧ e.forkedFor c = none := by
  cases e <;> simp_all [conn, sentOn, receivedOn, answeredOn, takenOn, forkedFor]

end Event

/-- All that was sent on the connection, oldest first. -/
def sent (c : ConnId) (T : List Event) : List ServiceMessage := history (Event.sentOn c) T

/-- All that the manager has read from it. -/
def received (c : ConnId) (T : List Event) : List ServiceMessage := history (Event.receivedOn c) T

/-- All that the manager has written to it. -/
def answered (c : ConnId) (T : List Event) : List ServiceMessage := history (Event.answeredOn c) T

/-- All that the client has read from it. -/
def taken (c : ConnId) (T : List Event) : List ServiceMessage := history (Event.takenOn c) T

/-- All processes that were forked to serve it. -/
def forks (c : ConnId) (T : List Event) : List Pid := history (Event.forkedFor c) T

namespace State

/-- The messages in flight to the manager. -/
def toServer (s : State) (c : ConnId) : List ServiceMessage :=
  (s.conns c).elim [] fun k => k.toServer.map Packet.message

/-- The messages in flight to the client. -/
def toClient (s : State) (c : ConnId) : List ServiceMessage :=
  (s.conns c).elim [] fun k => k.toClient.map Packet.message

/-- The manager has accepted the connection. -/
def accepted (s : State) (c : ConnId) : Bool := (s.conns c).elim false Conn.accepted

end State

/-! ### The four changes of the state -/

section Changes

variable (s) (k : Conn)

@[simp] theorem toServer_setConn (c d : ConnId) :
    (s.setConn c k).toServer d = if d = c then k.toServer.map Packet.message else s.toServer d := by
  unfold State.toServer State.setConn
  dsimp only
  rw [update_apply]
  split <;> rfl

@[simp] theorem toClient_setConn (c d : ConnId) :
    (s.setConn c k).toClient d = if d = c then k.toClient.map Packet.message else s.toClient d := by
  unfold State.toClient State.setConn
  dsimp only
  rw [update_apply]
  split <;> rfl

@[simp] theorem accepted_setConn (c d : ConnId) :
    (s.setConn c k).accepted d = if d = c then k.accepted else s.accepted d := by
  unfold State.accepted State.setConn
  dsimp only
  rw [update_apply]
  split <;> rfl

@[simp] theorem trace_setConn : (s.setConn c k).trace = s.trace := rfl
@[simp] theorem trace_setProc : (s.setProc p x).trace = s.trace := rfl
@[simp] theorem trace_setClient (ph : ClientPhase) : (s.setClient i ph).trace = s.trace := rfl
@[simp] theorem trace_log : (s.log e).trace = e :: s.trace := rfl

@[simp] theorem toServer_setProc : (s.setProc p x).toServer c = s.toServer c := rfl
@[simp] theorem toServer_setClient (ph : ClientPhase) :
    (s.setClient i ph).toServer c = s.toServer c := rfl
@[simp] theorem toServer_log : (s.log e).toServer c = s.toServer c := rfl

@[simp] theorem toClient_setProc : (s.setProc p x).toClient c = s.toClient c := rfl
@[simp] theorem toClient_setClient (ph : ClientPhase) :
    (s.setClient i ph).toClient c = s.toClient c := rfl
@[simp] theorem toClient_log : (s.log e).toClient c = s.toClient c := rfl

@[simp] theorem accepted_setProc : (s.setProc p x).accepted c = s.accepted c := rfl
@[simp] theorem accepted_setClient (ph : ClientPhase) :
    (s.setClient i ph).accepted c = s.accepted c := rfl
@[simp] theorem accepted_log : (s.log e).accepted c = s.accepted c := rfl

end Changes

theorem toServer_of_conn (hc : s.conns c = some k) :
    s.toServer c = k.toServer.map Packet.message := by rw [State.toServer, hc]; rfl

theorem toClient_of_conn (hc : s.conns c = some k) :
    s.toClient c = k.toClient.map Packet.message := by rw [State.toClient, hc]; rfl

theorem accepted_of_conn (hc : s.conns c = some k) : s.accepted c = k.accepted := by
  rw [State.accepted, hc]
  rfl

theorem of_no_conn (hc : s.conns c = none) :
    s.toServer c = [] ∧ s.toClient c = [] ∧ s.accepted c = false := by
  simp [State.toServer, State.toClient, State.accepted, hc]

/-! ### Both directions keep their order -/

/-- What was put into each direction and what was taken out. -/
structure Flows (s : State) : Prop where
  toServer : ∀ c, Fifo (sent c s.trace) (received c s.trace) (s.toServer c)
  toClient : ∀ c, Fifo (answered c s.trace) (taken c s.trace) (s.toClient c)

/-- A step that puts nothing and takes nothing. -/
theorem Flows.still (h : Flows s) (hT : s'.trace = s.trace) (hserver : s'.toServer = s.toServer)
    (hclient : s'.toClient = s.toClient) : Flows s' where
  toServer c := by rw [hT, hserver]; exact h.toServer c
  toClient c := by rw [hT, hclient]; exact h.toClient c

/-- An event on one connection, with what becomes of that connection. -/
theorem Flows.logConn {k' : Conn} (h : Flows s) (he : e.conn = some c)
    (hserver : Fifo (sent c (e :: s.trace)) (received c (e :: s.trace))
      (k'.toServer.map Packet.message))
    (hclient : Fifo (answered c (e :: s.trace)) (taken c (e :: s.trace))
      (k'.toClient.map Packet.message)) : Flows ((s.log e).setConn c k') := by
  have hother : ∀ d, d ≠ c → sent d (e :: s.trace) = sent d s.trace ∧
      received d (e :: s.trace) = received d s.trace ∧
      answered d (e :: s.trace) = answered d s.trace ∧
      taken d (e :: s.trace) = taken d s.trace := by
    intro d hd
    have hne : e.conn ≠ some d := by
      rw [he]
      exact fun heq => hd (Option.some.inj heq).symm
    obtain ⟨hs, hr, ha, ht, -⟩ := Event.unseen hne
    exact ⟨history_cons_none hs, history_cons_none hr, history_cons_none ha, history_cons_none ht⟩
  constructor
  · intro d
    rw [trace_setConn, trace_log, toServer_setConn]
    split
    · next hd => exact hd ▸ hserver
    · next hd =>
      obtain ⟨hs, hr, -, -⟩ := hother d hd
      rw [hs, hr]
      exact h.toServer d
  · intro d
    rw [trace_setConn, trace_log, toClient_setConn]
    split
    · next hd => exact hd ▸ hclient
    · next hd =>
      obtain ⟨-, -, ha, ht⟩ := hother d hd
      rw [ha, ht]
      exact h.toClient d

/-- An event that is no message. -/
theorem Flows.log (h : Flows s) (he : ∀ c, e.sentOn c = none ∧ e.receivedOn c = none ∧
    e.answeredOn c = none ∧ e.takenOn c = none) : Flows (s.log e) where
  toServer c := by
    obtain ⟨hs, hr, -, -⟩ := he c
    rw [trace_log, sent, received, history_cons_none hs, history_cons_none hr]
    exact h.toServer c
  toClient c := by
    obtain ⟨-, -, ha, ht⟩ := he c
    rw [trace_log, answered, taken, history_cons_none ha, history_cons_none ht]
    exact h.toClient c

section Messages

variable {m r : ServiceMessage} {rest : List Packet} {pk : Packet}

/-- A message is put into the direction of the manager. -/
theorem Flows.send (h : Flows s) (hc : s.conns c = some k) (hm : pk.message = m) :
    Flows ((s.log (.sent i c m)).setConn c { k with toServer := k.toServer ++ [pk] }) := by
  have hserver := h.toServer c
  have hclient := h.toClient c
  rw [toServer_of_conn hc] at hserver
  rw [toClient_of_conn hc] at hclient
  have hs : (Event.sent i c m).sentOn c = some m := if_pos rfl
  refine h.logConn rfl ?_ ?_
  · rw [sent, received, history_cons_some hs, history_cons_none rfl, List.map_append,
      List.map_singleton, hm]
    exact hserver.push m
  · rw [answered, taken, history_cons_none rfl, history_cons_none rfl]
    exact hclient

/-- The manager takes the message that is in front. -/
theorem Flows.receive (h : Flows s) (hc : s.conns c = some k) (hk : k.toServer = pk :: rest)
    (hm : pk.message = m) :
    Flows ((s.log (.received p c m)).setConn c { k with toServer := rest }) := by
  have hserver := h.toServer c
  have hclient := h.toClient c
  rw [toServer_of_conn hc, hk, List.map_cons, hm] at hserver
  rw [toClient_of_conn hc] at hclient
  have hr : (Event.received p c m).receivedOn c = some m := if_pos rfl
  refine h.logConn rfl ?_ ?_
  · rw [sent, received, history_cons_none rfl, history_cons_some hr]
    exact hserver.pop
  · rw [answered, taken, history_cons_none rfl, history_cons_none rfl]
    exact hclient

/-- It puts an answer into the other direction. -/
theorem Flows.answer (h : Flows s) (hc : s.conns c = some k) (hm : pk.message = r) :
    Flows ((s.log (.answered p c r)).setConn c { k with toClient := k.toClient ++ [pk] }) := by
  have hserver := h.toServer c
  have hclient := h.toClient c
  rw [toServer_of_conn hc] at hserver
  rw [toClient_of_conn hc] at hclient
  have ha : (Event.answered p c r).answeredOn c = some r := if_pos rfl
  refine h.logConn rfl ?_ ?_
  · rw [sent, received, history_cons_none rfl, history_cons_none rfl]
    exact hserver
  · rw [answered, taken, history_cons_some ha, history_cons_none rfl, List.map_append,
      List.map_singleton, hm]
    exact hclient.push r

/-- The client takes the answer that is in front. -/
theorem Flows.take {o : Option ClientId} (h : Flows s) (hc : s.conns c = some k)
    (hk : k.toClient = pk :: rest) (hm : pk.message = r) :
    Flows ((s.log (.took i c r o)).setConn c { k with toClient := rest }) := by
  have hserver := h.toServer c
  have hclient := h.toClient c
  rw [toServer_of_conn hc] at hserver
  rw [toClient_of_conn hc, hk, List.map_cons, hm] at hclient
  have ht : (Event.took i c r o).takenOn c = some r := if_pos rfl
  refine h.logConn rfl ?_ ?_
  · rw [sent, received, history_cons_none rfl, history_cons_none rfl]
    exact hserver
  · rw [answered, taken, history_cons_none rfl, history_cons_some ht]
    exact hclient.pop

end Messages

/-- A connection is opened at a fresh number. -/
theorem Flows.openConn (h : Flows s) (hc : s.conns c = none) :
    Flows ((s.log (.connected i c)).setConn c (.fresh i)) := by
  obtain ⟨hto, hfrom, -⟩ := of_no_conn hc
  have hserver := h.toServer c
  have hclient := h.toClient c
  rw [hto] at hserver
  rw [hfrom] at hclient
  exact h.logConn rfl hserver hclient

/-- The queues of a connection stay. -/
theorem Flows.keepConn {k' : Conn} (h : Flows s) (hc : s.conns c = some k)
    (hto : k'.toServer = k.toServer) (hfrom : k'.toClient = k.toClient) :
    Flows (s.setConn c k') := by
  refine h.still rfl (funext fun d => ?_) (funext fun d => ?_)
  · rw [toServer_setConn]
    split
    · next hd => rw [hd, hto, toServer_of_conn hc]
    · rfl
  · rw [toClient_setConn]
    split
    · next hd => rw [hd, hfrom, toClient_of_conn hc]
    · rfl

theorem Flows.step (h : Flows s) (hs : Step kind s s') : Flows s' := by
  cases hs with
  | @accept p x sockfd fd c k hp hph hsock hfd hc hk =>
    have hlog : Flows (s.log (.accepted c)) := h.log fun c => ⟨rfl, rfl, rfl, rfl⟩
    have hconn : Flows ((s.log (.accepted c)).setConn c { k with accepted := true }) :=
      hlog.keepConn hc rfl rfl
    exact hconn.still rfl rfl rfl
  | @forkChild p q x c =>
    have hlog : Flows (s.log (.forked q c)) := h.log fun c => ⟨rfl, rfl, rfl, rfl⟩
    exact hlog.still rfl rfl rfl
  | @read p x c k m rest hp hph hfd hc hm =>
    -- a whole message is read
    have hconn := h.receive (p := p) hc hm (overlay_whole x.args.message.message m.message).symm
    exact hconn.still rfl rfl rfl
  | write hp hph hfd hc => exact (h.answer hc rfl).still rfl rfl rfl
  | connect hi hph hc => exact (h.openConn hc).still rfl rfl rfl
  | sayHello hi hph hc => exact (h.send hc rfl).still rfl rfl rfl
  | takeReply hi hph hc hr => exact (h.take hc hr rfl).still rfl rfl rfl
  | @takeEof i v c =>
    have hlog : Flows (s.log (.sawEof i c)) := h.log fun c => ⟨rfl, rfl, rfl, rfl⟩
    exact hlog.still rfl rfl rfl
  | @start i =>
    have hlog : Flows (s.log (.started i)) := h.log fun c => ⟨rfl, rfl, rfl, rfl⟩
    exact hlog.still rfl rfl rfl
  | @close i c k hc hk =>
    have hconn : Flows (s.setConn c { k with clientOpen := false }) := h.keepConn hc rfl rfl
    exact hconn.still rfl rfl rfl
  | otherConnect hi hc => exact h.openConn hc
  | otherSend m hi hc => exact h.send hc rfl
  | otherTake hi hc hk hopen hr => exact h.take hc hr rfl
  | _ => exact h.still rfl rfl rfl

/-! ### The stages of a connection -/

/-- The process is there for the connection: it hands it on or serves it. -/
def Proc.Serves (x : Proc) (c : ConnId) : Prop :=
  (x.phase = .forking ∨ x.phase = .forkingChild ∨ x.phase = .reading ∨ x.phase = .writing) ∧
    x.fds x.args.newsockfd = some (.conn c)

/-- The processes that are there for it. -/
def State.servers (s : State) (c : ConnId) : Set (Pid × Proc) :=
  {r | s.procs r.1 = some r.2 ∧ r.2.Serves c}

/-- The answer that the process is about to write. -/
def Proc.held (x : Proc) : Option ServiceMessage :=
  if x.phase = .writing then some x.args.message.message else none

/-- **The stages**, with what the manager has done on the connection. -/
inductive Stage (s : State) (c : ConnId) : Prop
  | pending : s.accepted c = false → s.servers c = ∅ → forks c s.trace = [] →
    received c s.trace = [] → answered c s.trace = [] → Stage s c
  | handed (p : Pid) (x : Proc) : s.accepted c = true → s.servers c = {(p, x)} →
    x.phase = .forking ∨ x.phase = .forkingChild → forks c s.trace = [] →
    received c s.trace = [] → answered c s.trace = [] → Stage s c
  | served (p : Pid) (x : Proc) : s.accepted c = true → s.servers c = {(p, x)} →
    x.phase = .reading ∨ x.phase = .writing → forks c s.trace = [p] →
    Replying answer (received c s.trace) (answered c s.trace) x.held → Stage s c
  | left (held : Option ServiceMessage) : s.accepted c = true → s.servers c = ∅ →
    (forks c s.trace).length ≤ 1 →
    Replying answer (received c s.trace) (answered c s.trace) held → Stage s c

theorem Proc.Serves.unique (hc : x.Serves c) (hd : x.Serves d) : c = d :=
  File.conn.inj (Option.some.inj (hc.2.symm.trans hd.2))

theorem mem_servers_setProc {r : Pid × Proc} :
    r ∈ (s.setProc p x).servers c ↔ r.1 = p ∧ r.2 = x ∧ x.Serves c ∨ r.1 ≠ p ∧ r ∈ s.servers c := by
  obtain ⟨q, y⟩ := r
  show update s.procs p (some x) q = some y ∧ y.Serves c ↔ _
  by_cases h : q = p
  · subst h
    simp only [update_self, Option.some.injEq, true_and, ne_eq, not_true, false_and, or_false]
    constructor
    · rintro ⟨rfl, hy⟩
      exact ⟨rfl, hy⟩
    · rintro ⟨rfl, hy⟩
      exact ⟨rfl, hy⟩
  · simp [h, State.servers]

/-- A process that is there for nothing is put in the place of another one. -/
theorem servers_setProc_idle (hy : ∀ c, ¬ y.Serves c) (c : ConnId) :
    (s.setProc p y).servers c = {r ∈ s.servers c | r.1 ≠ p} := by
  ext r
  rw [mem_servers_setProc]
  simp [hy c, and_comm]

@[simp] theorem servers_log : (s.log e).servers c = s.servers c := rfl
@[simp] theorem servers_setConn : (s.setConn d k).servers c = s.servers c := rfl
@[simp] theorem servers_setClient (ph : ClientPhase) :
    (s.setClient i ph).servers c = s.servers c := rfl

/-- What is not about the connection leaves its stage. -/
theorem Stage.frame (h : Stage s c) (hacc : s'.accepted c = s.accepted c)
    (hservers : s'.servers c = s.servers c)
    (hT : s'.trace = s.trace ∨ ∃ e, (e.receivedOn c = none ∧ e.answeredOn c = none ∧
      e.forkedFor c = none) ∧ s'.trace = e :: s.trace) : Stage s' c := by
  obtain ⟨hr, ha, hf⟩ : received c s'.trace = received c s.trace ∧
      answered c s'.trace = answered c s.trace ∧ forks c s'.trace = forks c s.trace := by
    rcases hT with hT | ⟨e, ⟨hr, ha, hf⟩, hT⟩
    · rw [hT]
      exact ⟨rfl, rfl, rfl⟩
    · rw [hT]
      exact ⟨history_cons_none hr, history_cons_none ha, history_cons_none hf⟩
  rcases h with ⟨h₁, h₂, h₃, h₄, h₅⟩ | ⟨p, x, h₁, h₂, h₃, h₄, h₅, h₆⟩ | ⟨p, x, h₁, h₂, h₃, h₄, h₅⟩ |
    ⟨held, h₁, h₂, h₃, h₄⟩
  · exact .pending (hacc.trans h₁) (hservers.trans h₂) (hf.trans h₃) (hr.trans h₄) (ha.trans h₅)
  · exact .handed p x (hacc.trans h₁) (hservers.trans h₂) h₃ (hf.trans h₄) (hr.trans h₅)
      (ha.trans h₆)
  · exact .served p x (hacc.trans h₁) (hservers.trans h₂) h₃ (hf.trans h₄)
      (by rw [hr, ha]; exact h₅)
  · exact .left held (hacc.trans h₁) (hservers.trans h₂) (by rw [hf]; exact h₃)
      (by rw [hr, ha]; exact h₄)

section Servers

variable (h : Stage s c) (hp : s.procs p = some x) (hx : x.Serves c)

include h hp hx

/-- While a process hands the connection on, nothing has happened on it. -/
theorem Stage.of_handing (hph : x.phase = .forking ∨ x.phase = .forkingChild) :
    s.accepted c = true ∧ s.servers c = {(p, x)} ∧ forks c s.trace = [] ∧
      received c s.trace = [] ∧ answered c s.trace = [] := by
  have hmem : (p, x) ∈ s.servers c := ⟨hp, hx⟩
  rcases h with ⟨-, hs, -⟩ | ⟨q, y, h₁, hs, -, h₂, h₃, h₄⟩ | ⟨q, y, -, hs, hy, -⟩ | ⟨-, -, hs, -⟩
  · simp [hs] at hmem
  · rw [hs] at hmem
    obtain ⟨rfl, rfl⟩ := Prod.mk.inj hmem
    exact ⟨h₁, hs, h₂, h₃, h₄⟩
  · rw [hs] at hmem
    obtain ⟨rfl, rfl⟩ := Prod.mk.inj hmem
    rcases hph with hph | hph <;> simp [hph] at hy
  · simp [hs] at hmem

/-- The process that serves it has answered what it has received, but for the
answer at hand. -/
theorem Stage.of_serving (hph : x.phase = .reading ∨ x.phase = .writing) :
    s.accepted c = true ∧ s.servers c = {(p, x)} ∧ forks c s.trace = [p] ∧
      Replying answer (received c s.trace) (answered c s.trace) x.held := by
  have hmem : (p, x) ∈ s.servers c := ⟨hp, hx⟩
  rcases h with ⟨-, hs, -⟩ | ⟨q, y, -, hs, hy, -⟩ | ⟨q, y, h₁, hs, -, h₂, h₃⟩ | ⟨-, -, hs, -⟩
  · simp [hs] at hmem
  · rw [hs] at hmem
    obtain ⟨rfl, rfl⟩ := Prod.mk.inj hmem
    rcases hph with hph | hph <;> simp [hph] at hy
  · rw [hs] at hmem
    obtain ⟨rfl, rfl⟩ := Prod.mk.inj hmem
    exact ⟨h₁, hs, h₂, h₃⟩
  · simp [hs] at hmem

/-- Whatever the process does, it is the only one. -/
theorem Stage.of_serves : s.accepted c = true ∧ s.servers c = {(p, x)} ∧
    (forks c s.trace).length ≤ 1 ∧
      ∃ held, Replying answer (received c s.trace) (answered c s.trace) held := by
  rcases hx.1 with hph | hph | hph | hph
  · obtain ⟨h₁, h₂, h₃, h₄, h₅⟩ := h.of_handing hp hx (.inl hph)
    exact ⟨h₁, h₂, by simp [h₃], none, by rw [h₄, h₅]; exact .empty answer⟩
  · obtain ⟨h₁, h₂, h₃, h₄, h₅⟩ := h.of_handing hp hx (.inr hph)
    exact ⟨h₁, h₂, by simp [h₃], none, by rw [h₄, h₅]; exact .empty answer⟩
  · obtain ⟨h₁, h₂, h₃, h₄⟩ := h.of_serving hp hx (.inl hph)
    exact ⟨h₁, h₂, by simp [h₃], _, h₄⟩
  · obtain ⟨h₁, h₂, h₃, h₄⟩ := h.of_serving hp hx (.inr hph)
    exact ⟨h₁, h₂, by simp [h₃], _, h₄⟩

end Servers

/-- A process that is not there for the connection is none of its servers. -/
theorem fst_ne_of_mem_servers (hp : s.procs p = some x) (hx : ¬ x.Serves c) {r : Pid × Proc}
    (hr : r ∈ s.servers c) : r.1 ≠ p := by
  rintro rfl
  obtain rfl := Option.some.inj (hp.symm.trans hr.1)
  exact hx hr.2

theorem fst_ne_of_fresh (hq : s.procs q = none) {r : Pid × Proc} (hr : r ∈ s.servers c) :
    r.1 ≠ q := by
  rintro rfl
  exact absurd (hq.symm.trans hr.1) (Option.some_ne_none r.2).symm

/-- The servers of a connection, behind a process that is there for none. -/
theorem servers_setProc_of_not (hy : ¬ y.Serves c) (hne : ∀ r ∈ s.servers c, r.1 ≠ p) :
    (s.setProc p y).servers c = s.servers c := by
  ext r
  rw [mem_servers_setProc]
  constructor
  · rintro (⟨-, -, h⟩ | ⟨-, h⟩)
    · exact absurd h hy
    · exact h
  · exact fun h => .inr ⟨hne r h, h⟩

/-- The one server is another one, or the same at another place. -/
theorem servers_setProc_of_serves (hy : y.Serves c) (honly : ∀ r ∈ s.servers c, r.1 = p) :
    (s.setProc p y).servers c = {(p, y)} := by
  ext ⟨q, z⟩
  rw [mem_servers_setProc, Set.mem_singleton_iff, Prod.mk.injEq]
  constructor
  · rintro (⟨rfl, rfl, -⟩ | ⟨hne, h⟩)
    · exact ⟨rfl, rfl⟩
    · exact absurd (honly _ h) hne
  · rintro ⟨rfl, rfl⟩
    exact .inl ⟨rfl, rfl, hy⟩

/-- A process that ends, or does something else from now on. -/
theorem Stage.retire (h : ∀ c, Stage s c) (hp : s.procs p = some x) (hy : ∀ c, ¬ y.Serves c)
    (c : ConnId) : Stage (s.setProc p y) c := by
  by_cases hx : x.Serves c
  · obtain ⟨hacc, hs, hforks, held, hreplies⟩ := (h c).of_serves hp hx
    refine .left held hacc ?_ hforks hreplies
    rw [servers_setProc_idle hy, hs]
    refine Set.eq_empty_of_forall_notMem ?_
    rintro r ⟨rfl, hne⟩
    exact hne rfl
  · refine (h c).frame rfl (servers_setProc_of_not (hy c) fun r => ?_) (.inl rfl)
    exact fst_ne_of_mem_servers hp hx

theorem not_serves_of_phase (hph : x.phase = .accepting ∨ x.phase = .closing ∨ x.phase = .exited ∨
    ∃ q, x.phase = .waiting q) (c : ConnId) : ¬ x.Serves c := by
  rintro ⟨h, -⟩
  rcases hph with hph | hph | hph | ⟨q, hph⟩ <;> simp [hph] at h

/-- An event of a client. -/
theorem Stage.client {k' : Conn} (h : Stage s c) (hacc : k'.accepted = s.accepted d)
    (he : e.receivedOn c = none ∧ e.answeredOn c = none ∧ e.forkedFor c = none) :
    Stage ((s.log e).setConn d k') c := by
  refine h.frame ?_ rfl (.inr ⟨e, he, rfl⟩)
  rw [accepted_setConn, hacc]
  split
  · next hd => rw [hd]
  · rfl

theorem Stage.setClient {ph : ClientPhase} (h : Stage s c) : Stage (s.setClient i ph) c :=
  h.frame rfl rfl (.inl rfl)

section Fork

variable {z : Proc} (hp : s.procs p = some x) (hq : s.procs q = none) (hy : ∀ c, ¬ y.Serves c)

include hy

/-- One process goes on with what the other one leaves. -/
theorem servers_fork (hs : s.servers c = {(p, x)}) (hz : z.Serves c) :
    ((s.setProc p y).setProc q z).servers c = {(q, z)} := by
  refine servers_setProc_of_serves hz fun r hr => ?_
  rw [servers_setProc_idle hy, hs] at hr
  obtain ⟨rfl, hne⟩ := hr
  exact absurd rfl hne

include hp hq

theorem servers_fork_of_not (hx : ¬ x.Serves c) (hz : ¬ z.Serves c) :
    ((s.setProc p y).setProc q z).servers c = s.servers c := by
  have hleft : (s.setProc p y).servers c = s.servers c :=
    servers_setProc_of_not (hy c) fun r hr => fst_ne_of_mem_servers hp hx hr
  rw [servers_setProc_of_not hz fun r hr => fst_ne_of_fresh hq (hleft ▸ hr), hleft]

end Fork

theorem Stage.accept {sockfd fd : Fd} {k : Conn} (h : ∀ c, Stage s c) (hp : s.procs p = some x)
    (hph : x.phase = .accepting) (hc : s.conns d = some k) (hk : k.accepted = false) (c : ConnId) :
    Stage (((s.log (.accepted d)).setConn d { k with accepted := true }).setProc p
      { phase := .forking
        fds := update x.fds fd (some (.conn d))
        args := { x.args with sockfd := sockfd, newsockfd := fd } }) c := by
  have hx : ¬ x.Serves c := not_serves_of_phase (.inl hph) c
  have hserves : Proc.Serves
      { phase := .forking
        fds := update x.fds fd (some (.conn d))
        args := { x.args with sockfd := sockfd, newsockfd := fd } } d :=
    ⟨.inl rfl, update_self ..⟩
  by_cases hd : c = d
  · subst hd
    -- only a connection that waits has not been accepted
    have hacc := (accepted_of_conn hc).trans hk
    rcases h c with ⟨-, hs, hf, hr, ha⟩ | ⟨-, -, htrue, -⟩ | ⟨-, -, htrue, -⟩ | ⟨-, htrue, -⟩
    · have hnone : ∀ r ∈ ((s.log (.accepted c)).setConn c { k with accepted := true }).servers c,
          r.1 = p := by
        intro r hr
        rw [servers_setConn, servers_log, hs] at hr
        exact absurd hr (Set.notMem_empty r)
      exact .handed p _ (by simp) (servers_setProc_of_serves hserves hnone) (.inl rfl) hf hr ha
    all_goals simp [hacc] at htrue
  · refine (h c).frame ?_ ?_ (.inr ⟨.accepted d, ⟨rfl, rfl, rfl⟩, rfl⟩)
    · simp [hd]
    · refine servers_setProc_of_not (fun hc => hd (hc.unique hserves)) fun r hr => ?_
      exact fst_ne_of_mem_servers hp hx hr

theorem Stage.fork (h : ∀ c, Stage s c) (hp : s.procs p = some x) (hph : x.phase = .forking)
    (hq : s.procs q = none) (c : ConnId) :
    Stage ((s.setProc p { x with phase := .closing }).setProc q
      { x with phase := .forkingChild }) c := by
  have hidle := not_serves_of_phase (x := { x with phase := .closing }) (.inr (.inl rfl))
  by_cases hx : x.Serves c
  · obtain ⟨hacc, hs, hf, hr, ha⟩ := (h c).of_handing hp hx (.inl hph)
    exact .handed q _ hacc (servers_fork hidle hs ⟨.inr (.inl rfl), hx.2⟩) (.inr rfl) hf hr ha
  · refine (h c).frame rfl (servers_fork_of_not hp hq hidle hx fun hz => hx ?_) (.inl rfl)
    exact ⟨.inl hph, hz.2⟩

/-- The process that is forked last serves the connection. -/
theorem Stage.forkChild (h : ∀ c, Stage s c) (hp : s.procs p = some x)
    (hph : x.phase = .forkingChild) (hfd : x.fds x.args.newsockfd = some (.conn d))
    (hq : s.procs q = none) (c : ConnId) :
    Stage (((s.log (.forked q d)).setProc p { x with phase := .waiting q }).setProc q
      { x with phase := .reading }) c := by
  have hidle := not_serves_of_phase (x := { x with phase := .waiting q })
    (.inr (.inr (.inr ⟨q, rfl⟩)))
  have hx : x.Serves d := ⟨.inr (.inl hph), hfd⟩
  by_cases hd : c = d
  · subst hd
    obtain ⟨hacc, hs, hf, hr, ha⟩ := (h c).of_handing hp hx (.inr hph)
    refine .served q _ hacc (servers_fork hidle hs ⟨.inr (.inr (.inl rfl)), hfd⟩) (.inl rfl) ?_ ?_
    · have hforked : (Event.forked q c).forkedFor c = some q := if_pos rfl
      show forks c (.forked q c :: s.trace) = [q]
      rw [forks, history_cons_some hforked]
      exact congrArg (· ++ [q]) hf
    · show Replying answer (received c s.trace) (answered c s.trace) none
      rw [hr, ha]
      exact .empty answer
  · have hxc : ¬ x.Serves c := fun hxc => hd (hxc.unique hx)
    refine (h c).frame rfl (servers_fork_of_not hp hq hidle hxc fun hz => hxc ?_)
      (.inr ⟨.forked q d, ⟨rfl, rfl, if_neg (Ne.symm hd)⟩, rfl⟩)
    exact ⟨.inr (.inl hph), hz.2⟩

section Loop

variable {m r : ServiceMessage} {k' : Conn}

/-- Whatever the serving process does next, it is the only one. -/
theorem servers_serve (hs : s.servers c = {(p, x)}) (hy : y.Serves c) :
    (s.setProc p y).servers c = {(p, y)} :=
  servers_setProc_of_serves hy fun r hr => by
    rw [hs] at hr
    obtain rfl := hr
    rfl

/-- Another connection does not see it. -/
theorem servers_serve_of_ne (hp : s.procs p = some x) (hx : x.Serves d) (hy : y.Serves d)
    (hd : c ≠ d) : (s.setProc p y).servers c = s.servers c := by
  refine servers_setProc_of_not (fun hc => hd (hc.unique hy)) fun r hr => ?_
  exact fst_ne_of_mem_servers hp (fun hc => hd (hc.unique hx)) hr

/-- The message that was read is answered next, or the process reads on. -/
theorem receive_spec (hph : x.phase = .reading) (pk : Packet) :
    ((x.receive pk).phase = .reading ∨ (x.receive pk).phase = .writing) ∧
      (x.receive pk).fds = x.fds ∧ (x.receive pk).args.newsockfd = x.args.newsockfd ∧
      (x.receive pk).held = answer pk.message := by
  rw [Proc.receive, overlay_whole]
  rcases h : answer pk.message with - | reply
  · exact ⟨.inl hph, rfl, rfl, by simp [Proc.held, hph]⟩
  · exact ⟨.inr rfl, rfl, rfl, by simp [Proc.held]⟩

theorem Stage.read {pk : Packet} (h : ∀ c, Stage s c) (hp : s.procs p = some x)
    (hph : x.phase = .reading) (hfd : x.fds x.args.newsockfd = some (.conn d))
    (hk : k'.accepted = s.accepted d) (c : ConnId) :
    Stage (((s.log (.received p d pk.message)).setConn d k').setProc p (x.receive pk)) c := by
  have hx : x.Serves d := ⟨.inr (.inr (.inl hph)), hfd⟩
  obtain ⟨hphase, hfds, hnew, hheld⟩ := receive_spec hph pk
  have hy : (x.receive pk).Serves d := ⟨.inr (.inr hphase), by rw [hfds, hnew]; exact hfd⟩
  by_cases hd : c = d
  · subst hd
    obtain ⟨hacc, hs, hf, hreplies⟩ := (h c).of_serving hp hx (.inl hph)
    have hnone : x.held = none := by simp [Proc.held, hph]
    rw [hnone] at hreplies
    have hreceived : (Event.received p c pk.message).receivedOn c = some pk.message := if_pos rfl
    refine .served p _ (by simp [hk, hacc]) (servers_serve hs hy) hphase hf ?_
    show Replying answer (received c (.received p c pk.message :: s.trace)) _ _
    rw [received, history_cons_some hreceived, hheld]
    exact hreplies.take pk.message
  · have hne : c ≠ d := hd
    refine (h c).frame (by simp [hne]) (servers_serve_of_ne hp hx hy hne)
      (.inr ⟨.received p d pk.message, ⟨if_neg hne.symm, rfl, rfl⟩, rfl⟩)

theorem Stage.write (h : ∀ c, Stage s c) (hp : s.procs p = some x)
    (hph : x.phase = .writing) (hfd : x.fds x.args.newsockfd = some (.conn d))
    (hk : k'.accepted = s.accepted d) (c : ConnId) :
    Stage (((s.log (.answered p d x.args.message.message)).setConn d k').setProc p
      { x with phase := .reading }) c := by
  have hx : x.Serves d := ⟨.inr (.inr (.inr hph)), hfd⟩
  have hy : Proc.Serves { x with phase := .reading } d := ⟨.inr (.inr (.inl rfl)), hfd⟩
  by_cases hd : c = d
  · subst hd
    obtain ⟨hacc, hs, hf, hreplies⟩ := (h c).of_serving hp hx (.inr hph)
    have hheld : x.held = some x.args.message.message := by simp [Proc.held, hph]
    rw [hheld] at hreplies
    have hanswered : (Event.answered p c x.args.message.message).answeredOn c =
        some x.args.message.message := if_pos rfl
    refine .served p _ (by simp [hk, hacc]) (servers_serve hs hy) (.inl rfl) hf ?_
    show Replying answer _ (answered c (.answered p c x.args.message.message :: s.trace)) none
    rw [answered, history_cons_some hanswered]
    exact hreplies.reply
  · have hne : c ≠ d := hd
    refine (h c).frame (by simp [hne]) (servers_serve_of_ne hp hx hy hne)
      (.inr ⟨.answered p d x.args.message.message, ⟨rfl, if_neg hne.symm, rfl⟩, rfl⟩)

end Loop

/-- **Each step keeps the stages.** -/
theorem Stage.step (h : ∀ c, Stage s c) (hs : Step kind s s') (c : ConnId) : Stage s' c := by
  cases hs with
  | accept hp hph hsock hfd hc hk => exact Stage.accept h hp hph hc hk c
  | fork hp hph hq => exact Stage.fork h hp hph hq c
  | closeNew hp hph => exact Stage.retire h hp (not_serves_of_phase (.inl rfl)) c
  | forkChild hp hph hfd hq => exact Stage.forkChild h hp hph hfd hq c
  | waited hp => exact Stage.retire h hp (not_serves_of_phase (.inr (.inr (.inl rfl)))) c
  | read hp hph hfd hc hm =>
    rw [overlay_whole]
    refine Stage.read h hp hph hfd ?_ c
    exact (accepted_of_conn hc).symm
  | write hp hph hfd hc =>
    refine Stage.write h hp hph hfd ?_ c
    exact (accepted_of_conn hc).symm
  | readEof hp => exact Stage.retire h hp (not_serves_of_phase (.inr (.inr (.inl rfl)))) c
  | die hp => exact Stage.retire h hp (not_serves_of_phase (.inr (.inr (.inl rfl)))) c
  | @connect i v d hi hph hc =>
    exact ((h c).client (e := .connected i d) (of_no_conn hc).2.2.symm ⟨rfl, rfl, rfl⟩).setClient
  | @sayHello i v d k hi hph hc =>
    refine ((h c).client (e := .sent i d v.sayHello) ?_ ⟨rfl, rfl, rfl⟩).setClient
    exact (accepted_of_conn hc).symm
  | @takeReply i v d k r rest hi hph hc hr =>
    refine ((h c).client (e := .took i d r.message r.origin) ?_ ⟨rfl, rfl, rfl⟩).setClient
    exact (accepted_of_conn hc).symm
  | @takeEof i v d => exact (h c).frame rfl rfl (.inr ⟨.sawEof i d, ⟨rfl, rfl, rfl⟩, rfl⟩)
  | @start i => exact (h c).frame rfl rfl (.inr ⟨.started i, ⟨rfl, rfl, rfl⟩, rfl⟩)
  | @close i d k hc hk =>
    refine (h c).frame ?_ rfl (.inl rfl)
    rw [accepted_setClient, accepted_setConn]
    split
    · next hd => rw [hd, accepted_of_conn hc]
    · rfl
  | otherConnect hi hc => exact (h c).client (of_no_conn hc).2.2.symm ⟨rfl, rfl, rfl⟩
  | otherSend m hi hc =>
    refine (h c).client ?_ ⟨rfl, rfl, rfl⟩
    exact (accepted_of_conn hc).symm
  | otherTake hi hc hk hopen hr =>
    refine (h c).client ?_ ⟨rfl, rfl, rfl⟩
    exact (accepted_of_conn hc).symm

/-! ### Who works on a connection -/

/-- What is received and answered on a connection, by a process that was
forked for it. -/
structure Workers (T : List Event) : Prop where
  received : ∀ p c m, .received p c m ∈ T → .forked p c ∈ T
  answered : ∀ p c r, .answered p c r ∈ T → .forked p c ∈ T

/-- An event that is neither, or is by such a process. -/
theorem Workers.cons (h : Workers T) (hr : ∀ p c m, e = .received p c m → .forked p c ∈ T)
    (ha : ∀ p c r, e = .answered p c r → .forked p c ∈ T) : Workers (e :: T) where
  received p c m hm := by
    rcases List.mem_cons.mp hm with rfl | hm
    · exact List.mem_cons_of_mem _ (hr p c m rfl)
    · exact List.mem_cons_of_mem _ (h.received p c m hm)
  answered p c r hm := by
    rcases List.mem_cons.mp hm with rfl | hm
    · exact List.mem_cons_of_mem _ (ha p c r rfl)
    · exact List.mem_cons_of_mem _ (h.answered p c r hm)

theorem Workers.step (h : Workers s.trace) (hinv : Inv kind s) (hs : Step kind s s') :
    Workers s'.trace := by
  cases hs with
  | @read p x c k m rest hp hph hfd hc hm =>
    obtain ⟨i, hev⟩ := (hinv.procs p x hp).of_reading hfd hph
    refine h.cons (fun q d m' he => ?_) nofun
    obtain ⟨rfl, rfl, -⟩ := Event.received.inj he
    exact hev.subset (by simp)
  | @write p x c k hp hph hfd hc =>
    obtain ⟨i, m, -, -, hr⟩ := (hinv.procs p x hp).of_writing hfd hph
    refine h.cons nofun fun q d r he => ?_
    obtain ⟨rfl, rfl, -⟩ := Event.answered.inj he
    exact hr.child.subset (by simp)
  | accept | forkChild | connect | sayHello | takeReply | takeEof | start | otherConnect |
    otherSend | otherTake => exact h.cons nofun nofun
  | _ => exact h

/-! ### Every run -/

/-- What a run has done on the connection `c`. -/
structure Exchange (s : State) (c : ConnId) : Prop where
  /-- requests: none lost, none twice, none out of order -/
  toServer : received c s.trace ++ s.toServer c = sent c s.trace
  /-- and answers the same -/
  toClient : taken c s.trace ++ s.toClient c = answered c s.trace
  /-- the answers are those to the requests that were received, in order, but
  for the last one -/
  replies : ∃ held : Option ServiceMessage,
    answered c s.trace ++ held.toList = (received c s.trace).filterMap answer
  /-- and with it while the process that serves the connection reads -/
  all : ∀ p x, s.procs p = some x → x.phase = .reading →
    x.fds x.args.newsockfd = some (.conn c) →
    answered c s.trace = (received c s.trace).filterMap answer
  /-- one process works on the connection -/
  worker : ∀ p, (∃ m, .received p c m ∈ s.trace) ∨ (∃ r, .answered p c r ∈ s.trace) →
    forks c s.trace = [p]
  /-- one process at most is there for it -/
  server : ∀ p q x y, s.procs p = some x → s.procs q = some y → x.Serves c → y.Serves c → p = q
  /-- the client gets answers to its own requests, in their order -/
  ends : taken c s.trace <+: (sent c s.trace).filterMap answer

theorem Stage.exchange (h : Stage s c) (hflow : Flows s) (hworkers : Workers s.trace) :
    Exchange s c := by
  have hone : (forks c s.trace).length ≤ 1 ∧
      ∃ held, Replying answer (received c s.trace) (answered c s.trace) held := by
    rcases h with ⟨-, -, hf, hr, ha⟩ | ⟨-, -, -, -, -, hf, hr, ha⟩ | ⟨p, x, -, -, -, hf, hreplies⟩ |
      ⟨held, -, -, hf, hreplies⟩
    · exact ⟨by simp [hf], none, by rw [hr, ha]; exact .empty answer⟩
    · exact ⟨by simp [hf], none, by rw [hr, ha]; exact .empty answer⟩
    · exact ⟨by simp [hf], _, hreplies⟩
    · exact ⟨hf, held, hreplies⟩
  obtain ⟨hforks, held, hreplies⟩ := hone
  refine ⟨hflow.toServer c, hflow.toClient c, ⟨held, hreplies⟩, fun p x hp hph hfd => ?_,
    fun p hp => ?_, fun p q x y hp hq hx hy => ?_, ?_⟩
  · obtain ⟨-, -, -, hall⟩ := h.of_serving hp ⟨.inr (.inr (.inl hph)), hfd⟩ (.inl hph)
    have hnone : x.held = none := by simp [Proc.held, hph]
    rw [hnone] at hall
    simpa [Replying] using hall
  · have hforked : .forked p c ∈ s.trace := by
      rcases hp with ⟨m, hm⟩ | ⟨r, hr⟩
      · exact hworkers.received p c m hm
      · exact hworkers.answered p c r hr
    have hmem : p ∈ forks c s.trace := mem_history.mpr ⟨_, hforked, if_pos rfl⟩
    obtain ⟨q, hq⟩ := List.length_eq_one_iff.mp (by
      have hpos := List.length_pos_of_mem hmem
      omega : (forks c s.trace).length = 1)
    rw [hq, List.mem_singleton] at hmem
    rw [hq, hmem]
  · obtain ⟨-, hs, -⟩ := h.of_serves hp hx
    have hmem : (q, y) ∈ s.servers c := ⟨hq, hy⟩
    rw [hs] at hmem
    exact (Prod.mk.inj hmem).1.symm
  · exact (hflow.toServer c).prefix_replies hreplies (hflow.toClient c)

/-- Each run keeps the order of the messages and the stages. -/
theorem Reachable.flows (h : Reachable kind s) :
    Flows s ∧ (∀ c, Stage s c) ∧ Workers s.trace := by
  obtain ⟨sockfd, args, hrun⟩ := h
  induction hrun with
  | refl =>
    refine ⟨⟨fun _ => .empty, fun _ => .empty⟩, fun c => ?_, ⟨nofun, nofun⟩⟩
    refine .pending rfl (Set.eq_empty_of_forall_notMem ?_) rfl rfl rfl
    rintro ⟨p, x⟩ ⟨hp, hx⟩
    have hp' : (if p = 0 then some _ else none) = some x := hp
    split at hp'
    · obtain rfl := Option.some.inj hp'
      exact not_serves_of_phase (.inl rfl) c hx
    · cases hp'
  | tail hprev hstep ih =>
    obtain ⟨hflow, hstage, hworkers⟩ := ih
    have hinv : Inv kind _ := Reachable.inv ⟨sockfd, args, hprev⟩
    exact ⟨hflow.step hstep, Stage.step hstage hstep, hworkers.step hinv hstep⟩

/-- **The exchange on each connection**, in every run: whoever has opened it,
whatever is sent on it and whatever else goes on. -/
theorem reachable_exchange (h : Reachable kind s) (c : ConnId) : Exchange s c := by
  obtain ⟨hflow, hstage, hworkers⟩ := h.flows
  exact (hstage c).exchange hflow hworkers

theorem reachable_exchange_backup :
    ∃ s, Reachable (fun _ => some .backup) s ∧ .started 0 ∈ s.trace ∧ Exchange s 0 := by
  obtain ⟨s, hs, hst⟩ := exists_started .backup
  exact ⟨s, hs, hst, reachable_exchange hs 0⟩

end SecuritySystem.Protocol
