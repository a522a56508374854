import RaftKV.PeerManager

/-!
# Connections and retries in every order

The network decides when connections come up and go down, what arrives on them and when a timer
fires. `Peers` is a manager with its connections, `Peers.step` one event; an event that cannot
happen, such as a connection that comes up a second time, does nothing. A timer may fire whether
or not it is pending, so stale ones are included.

`Registry` says what the two maps have in common with the live connections. `Phase` says where
a peer with a larger id stands : its client connects, or its connection is up, or one timer has
the token of the next attempt. The generation of `PeerRetryPolicy` counts the steps, and `Phase`
holds as long as it has not come round : after `2 ^ 63` connections to one peer the token of the
next attempt is `0`, which stands for no attempt (`lost_retry`).
-/

namespace RaftKV

open PeerManager

/-- Who opened a connection. -/
inductive Origin where
  | incoming
  | outgoing (peer : ℤ)
  deriving DecidableEq

/-- A manager and the connections it has. -/
structure Peers where
  manager : PeerManager
  live : ConnId → Option Origin := fun _ => none
  /-- The connections that have been up. -/
  used : List ConnId := []
  buffers : ConnId → Bytes := fun _ => []

/-- What the network does. -/
inductive PeerEvent where
  | incomingUp (conn : ConnId)
  | outgoingUp (peer : ℤ) (conn : ConnId) (now : ℤ)
  | down (conn : ConnId) (now : ℤ)
  | receive (conn : ConnId) (chunk : Bytes)
  | fire (timer : RetryTimer)

theorem filter_erase_of_neg {α : Type*} [DecidableEq α] {q : α → Bool} {a : α}
    (h : q a = false) (l : List α) : (l.erase a).filter q = l.filter q := by
  induction l with
  | nil => rfl
  | cons b l ih =>
    rw [List.erase_cons]
    split_ifs with heq
    · rw [eq_of_beq heq, List.filter_cons_of_neg (by simp [h])]
    · rw [List.filter_cons, List.filter_cons, ih]

theorem PeerRetryPolicy.disconnected_of_connected {r : PeerRetryPolicy}
    (h : r.isConnected = true) (now : ℤ) :
    ∃ delay, r.disconnected now = (⟨r.generation + 1, delay⟩,
      { r with
        isConnected := false
        nextDelayMs := min 2000 (delay * 2)
        pending := true
        generation := r.generation + 1 }) :=
  ⟨_, if_neg (by simp [h])⟩

namespace PeerManager

/-- The client for a peer still connects. -/
def Connecting (m : PeerManager) (p : ℤ) : Prop :=
  (m.clients p).map TcpClient.state = some .connecting

instance (m : PeerManager) (p : ℤ) : Decidable (m.Connecting p) :=
  inferInstanceAs (Decidable (_ = _))

variable {m : PeerManager} {p : ℤ}

theorem Connecting.client_ne_none (h : m.Connecting p) : m.clients p ≠ none := by
  intro hnone
  rw [Connecting, hnone] at h
  cases h

theorem connecting_connectToPeer (m : PeerManager) (peer : PeerInfo) :
    (m.connectToPeer peer).Connecting peer.id := by
  simp [Connecting, connectToPeer]

theorem clients_connectToPeer (m : PeerManager) {peer : PeerInfo} (h : p ≠ peer.id) :
    (m.connectToPeer peer).clients p = m.clients p :=
  Function.update_of_ne h ..

/-- The client for a peer got a connection. -/
def establish (m : PeerManager) (p : ℤ) (conn : ConnId) : PeerManager :=
  { m with
    clients := Function.update m.clients p
      ((m.clients p).map fun client => { client with state := .established conn }) }

/-- A timer that fires is no longer pending. -/
def unset (m : PeerManager) (timer : RetryTimer) : PeerManager :=
  { m with timers := m.timers.erase timer }

/-- The timer that is set when the connection to a peer goes down. -/
def planned (m : PeerManager) (p now : ℤ) : List RetryTimer :=
  let plan := ((m.retry p).disconnected now).1
  if plan.token = 0 then []
  else ((m.allPeers.find? fun peer => peer.id = p).map
    fun peer => ⟨peer, plan.token, plan.delayMs⟩).toList

theorem mem_planned {now : ℤ} {timer : RetryTimer}
    (h : timer ∈ m.planned p now) : timer.peer.id = p := by
  rw [planned] at h
  split_ifs at h
  · cases h
  · rw [Option.mem_toList, Option.map_eq_some_iff] at h
    obtain ⟨peer, hfind, rfl⟩ := h
    simpa using List.find?_some hfind

theorem onClientDown_of_ne {conn : ConnId} (h : m.connections p ≠ some conn) (now : ℤ) :
    m.onClientDown conn p now =
      { m with connectionPeers := Function.update m.connectionPeers conn none } :=
  if_pos h

theorem onClientDown_of_eq {conn : ConnId}
    (h : m.connections p = some conn) (now : ℤ) :
    m.onClientDown conn p now =
      { m with
        connectionPeers := Function.update m.connectionPeers conn none
        connections := Function.update m.connections p none
        retry := Function.update m.retry p ((m.retry p).disconnected now).2
        timers := m.timers ++ m.planned p now } := by
  rw [onClientDown, planned]
  dsimp only
  rw [if_neg (not_not.mpr h)]
  split_ifs
  · rw [List.append_nil]
  · cases m.allPeers.find? fun peer => peer.id = p with
    | none => simp
    | some peer => rfl

theorem onTimer_of_accepted {timer : RetryTimer}
    (hpending : (m.retry timer.peer.id).pending = true)
    (htoken : timer.token = (m.retry timer.peer.id).generation) :
    m.onTimer timer =
      { m with
        retry := Function.update m.retry timer.peer.id
          ((m.retry timer.peer.id).consume timer.token).2 }.connectToPeer timer.peer := by
  have haccepted : ((m.retry timer.peer.id).consume timer.token).1 = true := by
    rw [PeerRetryPolicy.consume, if_neg (by simp [hpending, htoken])]
  exact if_pos haccepted

theorem onTimer_of_stale {timer : RetryTimer} (h : (m.retry timer.peer.id).pending = false ∨
      timer.token ≠ (m.retry timer.peer.id).generation) : m.onTimer timer = m := by
  rw [onTimer, PeerRetryPolicy.consume, if_pos (by simpa using h)]
  dsimp only
  rw [Function.update_eq_self]
  rfl

end PeerManager

namespace Peers

/-- One event. -/
def step (w : Peers) : PeerEvent → Peers
  | .incomingUp conn =>
    if conn ∈ w.used then w
    else { w with live := Function.update w.live conn (some .incoming), used := conn :: w.used }
  | .outgoingUp p conn now =>
    if conn ∈ w.used ∨ ¬ w.manager.Connecting p then w
    else { w with
      manager := (w.manager.establish p conn).onClientUp conn p now
      live := Function.update w.live conn (some (.outgoing p))
      used := conn :: w.used }
  | .down conn now =>
    match w.live conn with
    | none => w
    | some .incoming =>
      { w with
        manager := w.manager.onServerDown conn
        live := Function.update w.live conn none }
    | some (.outgoing p) =>
      { w with
        manager := w.manager.onClientDown conn p now
        live := Function.update w.live conn none }
  | .receive conn chunk =>
    if w.live conn = none then w
    else
      let d := w.manager.parseAndDispatch conn (w.buffers conn ++ chunk)
      { w with
        manager := d.manager
        buffers := Function.update w.buffers conn d.buf }
  | .fire timer =>
    { w with manager := (w.manager.unset timer).onTimer timer }

/-- A started manager, after some events. -/
def run (selfId : ℤ) (allPeers : List PeerInfo) (events : List PeerEvent) : Peers :=
  events.foldl step { manager := PeerManager.start { selfId, allPeers } }

end Peers

/-! ## The maps -/

/-- What the maps say of the connections. -/
structure Registry (selfId : ℤ) (ids : List ℤ) (m : PeerManager)
    (live : ConnId → Option Origin) : Prop where
  self : m.selfId = selfId
  peers : m.allPeers.map PeerInfo.id = ids
  client : ∀ p, m.clients p ≠ none → p ∈ ids ∧ selfId < p
  retry : ∀ p, (m.retry p).pending = true → m.clients p ≠ none
  outgoing : ∀ conn p, live conn = some (.outgoing p) →
    m.connectionPeers conn = some p ∧ m.clients p ≠ none
  bound : ∀ conn p, m.connectionPeers conn = some p → live conn ≠ none ∧ p ∈ ids ∧ p ≠ selfId
  incoming : ∀ conn p, live conn = some .incoming → m.connectionPeers conn = some p → p < selfId
  current : ∀ p conn, m.connections p = some conn → m.connectionPeers conn = some p

namespace Registry

variable {selfId : ℤ} {ids : List ℤ} {m : PeerManager} {live : ConnId → Option Origin}

theorem connectToPeer (h : Registry selfId ids m live) {peer : PeerInfo}
    (hpeer : peer.id ∈ ids ∧ selfId < peer.id) :
    Registry selfId ids (m.connectToPeer peer) live := by
  have hkept : ∀ p, m.clients p ≠ none → (m.connectToPeer peer).clients p ≠ none := by
    intro p hp
    by_cases heq : p = peer.id
    · rw [heq]
      exact (m.connecting_connectToPeer peer).client_ne_none
    · rw [m.clients_connectToPeer heq]
      exact hp
  refine { h with
    client := fun p hp => ?_
    retry := fun p hp => hkept p (h.retry p hp)
    outgoing := fun c p hc => ⟨(h.outgoing c p hc).1, hkept p (h.outgoing c p hc).2⟩ }
  by_cases heq : p = peer.id
  · rw [heq]
    exact hpeer
  · exact h.client p (m.clients_connectToPeer heq ▸ hp)

variable {conn : ConnId}

section

variable (h : Registry selfId ids m live)
include h

theorem registerPeerConnection {p : ℤ} {m' : PeerManager} (hlive : live conn ≠ none)
    (hregister : m.registerPeerConnection p conn = some m') : Registry selfId ids m' live := by
  obtain ⟨⟨hmem, hne⟩, hbound, hfree, rfl⟩ := registerPeerConnection_eq_some.mp hregister
  rw [h.self] at hne hfree
  rw [h.peers] at hmem
  refine ⟨h.self, h.peers, h.client, h.retry, ?_, ?_, ?_, ?_⟩ <;> dsimp only
  · intro c q hc
    obtain ⟨hpeer, hq⟩ := h.outgoing c q hc
    by_cases heq : c = conn
    · subst heq
      rw [Function.update_self, hbound q hpeer]
      exact ⟨rfl, hbound q hpeer ▸ hq⟩
    · rw [Function.update_of_ne heq]
      exact ⟨hpeer, hq⟩
  · intro c q hc
    by_cases heq : c = conn
    · subst heq
      rw [Function.update_self] at hc
      cases hc
      exact ⟨hlive, hmem, hne⟩
    · rw [Function.update_of_ne heq] at hc
      exact h.bound c q hc
  · intro c q hc hq
    by_cases heq : c = conn
    · subst heq
      rw [Function.update_self] at hq
      cases hq
      cases hpeer : m.connectionPeers c with
      | none => exact lt_of_le_of_ne (hfree hpeer) hne
      | some r => exact hbound r hpeer ▸ h.incoming c r hc hpeer
    · rw [Function.update_of_ne heq] at hq
      exact h.incoming c q hc hq
  · intro q c hc
    by_cases hq : q = p
    · subst hq
      rw [Function.update_self] at hc
      cases hc
      exact Function.update_self ..
    rw [Function.update_of_ne hq] at hc
    have hcurrent := h.current q c hc
    by_cases heq : c = conn
    · subst heq
      exact absurd (hbound q hcurrent) hq
    · rw [Function.update_of_ne heq]
      exact hcurrent

theorem incomingUp (hfree : live conn = none) :
    Registry selfId ids m (Function.update live conn (some .incoming)) := by
  have hunbound : m.connectionPeers conn = none := by
    rw [Option.eq_none_iff_forall_ne_some]
    exact fun p hp => (h.bound conn p hp).1 hfree
  refine { h with outgoing := ?_, bound := ?_, incoming := ?_ }
  · intro c p hc
    by_cases heq : c = conn
    · rw [heq, Function.update_self] at hc
      cases hc
    · rw [Function.update_of_ne heq] at hc
      exact h.outgoing c p hc
  · intro c p hc
    have heq : c ≠ conn := fun heq => by rw [heq, hunbound] at hc; cases hc
    rw [Function.update_of_ne heq]
    exact h.bound c p hc
  intro c p hlive hc
  have heq : c ≠ conn := fun heq => by rw [heq, hunbound] at hc; cases hc
  rw [Function.update_of_ne heq] at hlive
  exact h.incoming c p hlive hc

theorem outgoingUp {p now : ℤ} (hfree : live conn = none) (hclient : m.clients p ≠ none) :
    Registry selfId ids ((m.establish p conn).onClientUp conn p now)
      (Function.update live conn (some (.outgoing p))) := by
  have hunbound : m.connectionPeers conn = none := by
    rw [Option.eq_none_iff_forall_ne_some]
    exact fun q hq => (h.bound conn q hq).1 hfree
  have hp := h.client p hclient
  have hclients : ∀ q, (m.establish p conn).clients q = none ↔ m.clients q = none := by
    intro q
    by_cases heq : q = p
    · subst heq
      simp [establish]
    · simp [establish, Function.update_of_ne heq]
  refine ⟨h.self, h.peers, ?_, ?_, ?_, ?_, ?_, ?_⟩ <;>
    dsimp only [PeerManager.onClientUp, PeerManager.establish]
  · exact fun q hq => h.client q fun hnone => hq ((hclients q).mpr hnone)
  · intro q hq hnone
    by_cases heq : q = p
    · subst heq
      exact hclient ((hclients q).mp hnone)
    · rw [Function.update_of_ne heq] at hq
      exact h.retry q hq ((hclients q).mp hnone)
  · intro c q hc
    by_cases heq : c = conn
    · subst heq
      rw [Function.update_self] at hc ⊢
      cases hc
      exact ⟨rfl, hclient ∘ (hclients p).mp⟩
    · rw [Function.update_of_ne heq] at hc ⊢
      exact ⟨(h.outgoing c q hc).1, (h.outgoing c q hc).2 ∘ (hclients q).mp⟩
  · intro c q hc
    by_cases heq : c = conn
    · subst heq
      rw [Function.update_self] at hc ⊢
      cases hc
      exact ⟨by simp, hp.1, hp.2.ne'⟩
    · rw [Function.update_of_ne heq] at hc ⊢
      exact h.bound c q hc
  · intro c q hlive hc
    by_cases heq : c = conn
    · subst heq
      rw [Function.update_self] at hlive
      cases hlive
    · rw [Function.update_of_ne heq] at hlive hc
      exact h.incoming c q hlive hc
  · intro q c hc
    by_cases heq : q = p
    · subst heq
      rw [Function.update_self] at hc
      cases hc
      exact Function.update_self ..
    rw [Function.update_of_ne heq] at hc
    have hcurrent := h.current q c hc
    have hne : c ≠ conn := fun hne => by rw [hne, hunbound] at hcurrent; cases hcurrent
    rw [Function.update_of_ne hne]
    exact hcurrent

theorem down {m' : PeerManager} (hself : m'.selfId = m.selfId) (hpeers : m'.allPeers = m.allPeers)
    (hclients : m'.clients = m.clients)
    (hretry : ∀ p, (m'.retry p).pending = true → m.clients p ≠ none)
    (hbound : m'.connectionPeers = Function.update m.connectionPeers conn none)
    (hcurrent : ∀ p c, m'.connections p = some c → m.connections p = some c ∧ c ≠ conn) :
    Registry selfId ids m' (Function.update live conn none) := by
  refine ⟨hself.trans h.self, hpeers ▸ h.peers, hclients ▸ h.client, hclients ▸ hretry, ?_, ?_, ?_,
    ?_⟩
  · intro c p hc
    have heq : c ≠ conn := fun heq => by rw [heq, Function.update_self] at hc; cases hc
    rw [Function.update_of_ne heq] at hc
    rw [hbound, Function.update_of_ne heq, hclients]
    exact h.outgoing c p hc
  · intro c p hc
    have heq : c ≠ conn := fun heq => by rw [hbound, heq, Function.update_self] at hc; cases hc
    rw [hbound, Function.update_of_ne heq] at hc
    rw [Function.update_of_ne heq]
    exact h.bound c p hc
  · intro c p hlive hc
    have heq : c ≠ conn := fun heq => by rw [heq, Function.update_self] at hlive; cases hlive
    rw [hbound, Function.update_of_ne heq] at hc
    rw [Function.update_of_ne heq] at hlive
    exact h.incoming c p hlive hc
  intro p c hc
  obtain ⟨hcurrent, heq⟩ := hcurrent p c hc
  rw [hbound, Function.update_of_ne heq]
  exact h.current p c hcurrent

end

end Registry

/-- What accepted senders keep, a call of `ParseAndDispatch` keeps. -/
theorem parseAndDispatch_keeps {motive : PeerManager → Prop} {conn : ConnId}
    (hregister : ∀ m p m', motive m → m.registerPeerConnection p conn = some m' → motive m')
    {m : PeerManager} (hm : motive m) (buf : Bytes) :
    motive (m.parseAndDispatch conn buf).manager := by
  rw [parseAndDispatch_eq]
  induction m, buf using (frameFramer conn).parse_induction with
  | value m buf n message hstep ih =>
    obtain ⟨-, m', h⟩ := frameFramer_step_complete.mp hstep
    rw [Framing.Framer.parse_complete hstep]
    refine ih ?_
    rw [frameFramer_next h]
    exact hregister m _ m' hm h
  | stuck m buf hstuck =>
    rw [Framing.Framer.parse_stuck hstuck]
    exact hm

namespace Registry

variable {selfId : ℤ} {ids : List ℤ} {m : PeerManager} {live : ConnId → Option Origin}

theorem onServerDown (h : Registry selfId ids m live) (conn : ConnId) :
    Registry selfId ids (m.onServerDown conn) (Function.update live conn none) := by
  refine h.down rfl rfl rfl h.retry rfl fun p c hc => ?_
  dsimp only [PeerManager.onServerDown] at hc
  split_ifs at hc with hcurrent
  exact ⟨hc, fun heq => hcurrent (heq ▸ hc)⟩

theorem onClientDown (h : Registry selfId ids m live) {conn : ConnId} {p : ℤ}
    (hlive : live conn = some (.outgoing p)) (now : ℤ) :
    Registry selfId ids (m.onClientDown conn p now) (Function.update live conn none) := by
  -- The connection is bound to its peer, so no other entry has it.
  have honly : ∀ q, m.connections q = some conn → q = p := fun q hq =>
    Option.some.inj ((h.current q conn hq).symm.trans (h.outgoing conn p hlive).1)
  by_cases hcurrent : m.connections p = some conn
  · rw [onClientDown_of_eq hcurrent]
    refine h.down rfl rfl rfl (fun q hq => ?_) rfl fun q c hc => ?_
    · by_cases heq : q = p
      · exact heq ▸ (h.outgoing conn p hlive).2
      · dsimp only at hq
        rw [Function.update_of_ne heq] at hq
        exact h.retry q hq
    by_cases heq : q = p
    · dsimp only at hc
      rw [heq, Function.update_self] at hc
      cases hc
    · dsimp only at hc
      rw [Function.update_of_ne heq] at hc
      exact ⟨hc, fun hconn => heq (honly q (hconn ▸ hc))⟩
  · rw [onClientDown_of_ne hcurrent]
    exact h.down rfl rfl rfl h.retry rfl fun q c hc =>
      ⟨hc, fun hconn => hcurrent (honly q (hconn ▸ hc) ▸ hconn ▸ hc)⟩

theorem onTimer (h : Registry selfId ids m live) (timer : RetryTimer) :
    Registry selfId ids (m.onTimer timer) live := by
  by_cases hstale : (m.retry timer.peer.id).pending = false ∨
      timer.token ≠ (m.retry timer.peer.id).generation
  · rw [onTimer_of_stale hstale]
    exact h
  rw [not_or, Bool.not_eq_false, not_not] at hstale
  have hpeer := h.client _ (h.retry _ hstale.1)
  rw [onTimer_of_accepted hstale.1 hstale.2]
  have hretry : ∀ p, (Function.update m.retry timer.peer.id
      ((m.retry timer.peer.id).consume timer.token).2 p).pending = true → m.clients p ≠ none := by
    intro p hp
    by_cases heq : p = timer.peer.id
    · rw [heq]
      exact h.retry _ hstale.1
    · rw [Function.update_of_ne heq] at hp
      exact h.retry p hp
  have hregistry : Registry selfId ids { m with
      retry := Function.update m.retry timer.peer.id
        ((m.retry timer.peer.id).consume timer.token).2 } live :=
    ⟨h.self, h.peers, h.client, hretry, h.outgoing, h.bound, h.incoming, h.current⟩
  exact hregistry.connectToPeer hpeer

end Registry

/-! ## The phases of a peer -/

/-- The client of a peer has that connection. -/
def PeerManager.Established (m : PeerManager) (p : ℤ) (conn : ConnId) : Prop :=
  (m.clients p).map TcpClient.state = some (.established conn)

/-- The timers for a peer. -/
def PeerManager.timersOf (m : PeerManager) (p : ℤ) : List RetryTimer :=
  m.timers.filter fun timer => timer.peer.id = p

/-- Where a peer stands, after `n` connections to it. -/
inductive Stage (m : PeerManager) (live : ConnId → Option Origin) (p : ℤ) (n : ℕ) : Prop
  | connecting (client : m.Connecting p) (idle : (m.retry p).pending = false)
      (apart : (m.retry p).isConnected = false) (count : (m.retry p).generation.toNat = 2 * n)
      (current : m.connections p = none)
  | up (conn : ConnId) (client : m.Established p conn) (alive : live conn = some (.outgoing p))
      (idle : (m.retry p).pending = false) (joined : (m.retry p).isConnected = true)
      (count : (m.retry p).generation.toNat + 1 = 2 * n) (current : m.connections p = some conn)
  | waiting (conn : ConnId) (client : m.Established p conn) (gone : live conn ≠ some (.outgoing p))
      (pending : (m.retry p).pending = true) (apart : (m.retry p).isConnected = false)
      (count : (m.retry p).generation.toNat = 2 * n) (current : m.connections p = none)
      (one : (m.timersOf p).countP (fun timer => timer.token = (m.retry p).generation) = 1)

/-- The stage of a peer, with the tokens that are out and the connections that are up. -/
structure Phase (m : PeerManager) (live : ConnId → Option Origin) (p : ℤ) (n : ℕ) : Prop where
  tokens : ∀ timer ∈ m.timersOf p, timer.token.toNat ≤ (m.retry p).generation.toNat
  only : ∀ conn, live conn = some (.outgoing p) → m.Established p conn
  stage : Stage m live p n

namespace Phase

variable {selfId : ℤ} {ids : List ℤ} {m m' : PeerManager} {live live' : ConnId → Option Origin}
  {p : ℤ} {n : ℕ}

theorem established_inj {c d : ConnId} (hc : m.Established p c) (hd : m.Established p d) :
    c = d := by
  rw [PeerManager.Established, hc] at hd
  cases hd
  rfl

theorem not_established {c : ConnId} (h : m.Connecting p) : ¬ m.Established p c := by
  intro hc
  rw [PeerManager.Established, h] at hc
  cases hc

/-- Only the parts that belong to the peer count. -/
theorem congr (h : Phase m live p n) (hclients : m'.clients p = m.clients p)
    (hretry : m'.retry p = m.retry p) (hcurrent : m'.connections p = m.connections p)
    (htimers : m'.timersOf p = m.timersOf p)
    (hlive : ∀ conn, live' conn = some (.outgoing p) ↔ live conn = some (.outgoing p)) :
    Phase m' live' p n := by
  have hconnecting : m'.Connecting p ↔ m.Connecting p := by
    rw [PeerManager.Connecting, PeerManager.Connecting, hclients]
  have hestablished : ∀ c, m'.Established p c ↔ m.Established p c := by
    intro c
    rw [PeerManager.Established, PeerManager.Established, hclients]
  refine ⟨?_, fun c hc => (hestablished c).mpr (h.only c ((hlive c).mp hc)), ?_⟩
  · rw [htimers, hretry]
    exact h.tokens
  cases h.stage with
  | connecting client idle apart count current =>
    exact .connecting (hconnecting.mpr client) (hretry ▸ idle) (hretry ▸ apart) (hretry ▸ count)
      (hcurrent.trans current)
  | up c client alive idle joined count current =>
    exact .up c ((hestablished c).mpr client) ((hlive c).mpr alive) (hretry ▸ idle)
      (hretry ▸ joined) (hretry ▸ count) (hcurrent.trans current)
  | waiting c client gone pending apart count current one =>
    exact .waiting c ((hestablished c).mpr client) (gone ∘ (hlive c).mp) (hretry ▸ pending)
      (hretry ▸ apart) (hretry ▸ count) (hcurrent.trans current) (by rw [htimers, hretry, one])

theorem toNat_succ {g : UInt64} (h : g.toNat + 1 < 2 ^ 64) : (g + 1).toNat = g.toNat + 1 := by
  rw [UInt64.toNat_add, UInt64.toNat_one, Nat.mod_eq_of_lt h]

theorem outgoingUp (h : Phase m live p n) {conn : ConnId} (now : ℤ) (hclient : m.Connecting p)
    (hn : n + 1 < 2 ^ 63) : Phase ((m.establish p conn).onClientUp conn p now)
      (Function.update live conn (some (.outgoing p))) p (n + 1) := by
  have hestablished : ((m.establish p conn).onClientUp conn p now).Established p conn := by
    obtain ⟨client, hsome⟩ := Option.ne_none_iff_exists'.mp hclient.client_ne_none
    simp [PeerManager.Established, PeerManager.onClientUp, PeerManager.establish, hsome]
  have hretry : ((m.establish p conn).onClientUp conn p now).retry p =
      (m.retry p).connected now :=
    Function.update_self ..
  have htimers : ((m.establish p conn).onClientUp conn p now).timersOf p = m.timersOf p := rfl
  cases h.stage with
  | up c client => exact (not_established hclient client).elim
  | waiting c client => exact (not_established hclient client).elim
  | connecting client idle apart count current =>
    have hgeneration : ((m.retry p).connected now).generation.toNat = 2 * n + 1 := by
      rw [PeerRetryPolicy.connected, toNat_succ (by omega), count]
    refine ⟨?_, ?_, ?_⟩
    · rw [htimers, hretry, hgeneration]
      exact fun timer htimer => le_trans (h.tokens timer htimer) (by omega)
    · intro c hc
      by_cases heq : c = conn
      · exact heq ▸ hestablished
      · rw [Function.update_of_ne heq] at hc
        exact (not_established hclient (h.only c hc)).elim
    refine .up conn hestablished (Function.update_self ..) ?_ ?_ ?_ (Function.update_self ..)
    · rw [hretry]
      rfl
    · rw [hretry]
      rfl
    · rw [hretry, hgeneration]
      omega

theorem onClientDown (h : Phase m live p n) (hp : p ∈ m.allPeers.map PeerInfo.id)
    {conn : ConnId} (now : ℤ) (hlive : live conn = some (.outgoing p)) (hn : n < 2 ^ 63) :
    Phase (m.onClientDown conn p now) (Function.update live conn none) p n := by
  have hclient := h.only conn hlive
  cases h.stage with
  | connecting client => exact (not_established client hclient).elim
  | waiting c client gone =>
    exact (gone (established_inj client hclient ▸ hlive)).elim
  | up c client alive idle joined count current =>
    obtain rfl := established_inj client hclient
    obtain ⟨peer, hfind⟩ : ∃ peer, (m.allPeers.find? fun peer => peer.id = p) = some peer := by
      obtain ⟨peer, hpeer, hid⟩ := List.mem_map.mp hp
      exact Option.isSome_iff_exists.mp (List.find?_isSome.mpr ⟨peer, hpeer, by simpa using hid⟩)
    have hid : peer.id = p := by simpa using List.find?_some hfind
    obtain ⟨delay, hplan⟩ := PeerRetryPolicy.disconnected_of_connected joined now
    have hcount : ((m.retry p).generation + 1).toNat = 2 * n := by
      rw [toNat_succ (by omega), count]
    have hnonzero : (m.retry p).generation + 1 ≠ 0 := by
      intro hzero
      rw [hzero, UInt64.toNat_zero] at hcount
      omega
    have hplanned : m.planned p now = [⟨peer, (m.retry p).generation + 1, delay⟩] := by
      rw [planned, hplan]
      rw [if_neg hnonzero, hfind]
      rfl
    have htimers : (m.onClientDown c p now).timersOf p =
        m.timersOf p ++ [⟨peer, (m.retry p).generation + 1, delay⟩] := by
      rw [onClientDown_of_eq current, hplanned, PeerManager.timersOf, List.filter_append,
        List.filter_singleton]
      simp [hid, PeerManager.timersOf]
    have hretry : (m.onClientDown c p now).retry p = ((m.retry p).disconnected now).2 := by
      rw [onClientDown_of_eq current]
      exact Function.update_self ..
    have hestablished : ∀ d, (m.onClientDown c p now).Established p d ↔ m.Established p d := by
      intro d
      rw [onClientDown_of_eq current]
      rfl
    have htokens : ∀ timer ∈ m.timersOf p, timer.token.toNat + 1 ≤ 2 * n := by
      intro timer htimer
      have := h.tokens timer htimer
      omega
    rw [hplan] at hretry
    refine ⟨?_, ?_, .waiting c ((hestablished c).mpr client) ?_ ?_ ?_ ?_ ?_ ?_⟩
    · rw [htimers, hretry]
      intro timer htimer
      rcases List.mem_append.mp htimer with hold | hnew
      · have := htokens timer hold
        dsimp only
        omega
      · rw [List.mem_singleton.mp hnew]
    · intro d hd
      have hne : d ≠ c := fun heq => by rw [heq, Function.update_self] at hd; cases hd
      rw [Function.update_of_ne hne] at hd
      exact (hestablished d).mpr (h.only d hd)
    · simp
    · rw [hretry]
    · rw [hretry]
    · rw [hretry]
      exact hcount
    · rw [onClientDown_of_eq current]
      exact Function.update_self ..
    · rw [htimers, hretry, List.countP_append, List.countP_eq_zero.mpr]
      · simp
      intro timer htimer htoken
      have hless := htokens timer htimer
      have heq : timer.token = (m.retry p).generation + 1 := by simpa using htoken
      rw [heq] at hless
      omega

theorem fire (h : Phase m live p n) {timer : RetryTimer} (hp : timer.peer.id = p) :
    Phase ((m.unset timer).onTimer timer) live p n := by
  subst hp
  have herase : ∀ t ∈ (m.unset timer).timersOf timer.peer.id, t ∈ m.timersOf timer.peer.id := by
    intro t ht
    rw [PeerManager.timersOf, List.mem_filter] at ht ⊢
    exact ⟨List.mem_of_mem_erase ht.1, ht.2⟩
  by_cases hstale : ((m.unset timer).retry timer.peer.id).pending = false ∨
      timer.token ≠ ((m.unset timer).retry timer.peer.id).generation
  · rw [onTimer_of_stale hstale]
    refine ⟨fun t ht => h.tokens t (herase t ht), h.only, ?_⟩
    cases h.stage with
    | connecting client idle apart count current =>
      exact .connecting client idle apart count current
    | up c client alive idle joined count current =>
      exact .up c client alive idle joined count current
    | waiting c client gone pending apart count current one =>
      refine .waiting c client gone pending apart count current ?_
      have htoken : timer.token ≠ (m.retry timer.peer.id).generation :=
        hstale.resolve_left (by rw [show (m.unset timer).retry = m.retry from rfl, pending]; simp)
      rw [PeerManager.timersOf, List.countP_filter] at one ⊢
      rw [List.countP_eq_length_filter] at one ⊢
      rw [PeerManager.unset, filter_erase_of_neg (by simp [htoken]), one]
  · rw [not_or, Bool.not_eq_false, not_not] at hstale
    obtain ⟨hpending, htoken⟩ := hstale
    rw [onTimer_of_accepted hpending htoken]
    have hpolicy : (((m.unset timer).retry timer.peer.id).consume timer.token).2 =
        { m.retry timer.peer.id with pending := false } :=
      congrArg Prod.snd (if_neg (by simp [hpending, htoken]))
    rw [hpolicy]
    cases h.stage with
    | connecting client idle => cases hpending.symm.trans idle
    | up c client alive idle => cases hpending.symm.trans idle
    | waiting c client gone pending apart count current one =>
      refine ⟨?_, fun d hd => ?_, .connecting (connecting_connectToPeer ..) ?_ ?_ ?_ current⟩
      · dsimp only [PeerManager.connectToPeer]
        rw [Function.update_self]
        exact fun t ht => h.tokens t (herase t ht)
      · exact (gone (established_inj client (h.only d hd) ▸ hd)).elim
      all_goals
        dsimp only [PeerManager.connectToPeer]
        rw [Function.update_self]
      · exact apart
      · exact count

/-- Accepted senders do not touch the connection of a peer with a larger id. -/
theorem registerPeerConnection (h : Phase m live p n) (hregistry : Registry selfId ids m live)
    (hp : selfId < p) {conn : ConnId} {q : ℤ}
    (hregister : m.registerPeerConnection q conn = some m') : Phase m' live p n := by
  obtain ⟨-, hbound, hfree, rfl⟩ := registerPeerConnection_eq_some.mp hregister
  refine h.congr rfl rfl ?_ rfl fun _ => Iff.rfl
  dsimp only
  by_cases heq : p = q
  · subst heq
    rw [Function.update_self]
    have hpeer : m.connectionPeers conn = some p := by
      cases hpeer : m.connectionPeers conn with
      | none => exact absurd (hfree hpeer) (by rw [hregistry.self]; omega)
      | some r => rw [hbound r hpeer]
    have hlive : live conn = some (.outgoing p) := by
      cases hlive : live conn with
      | none => exact ((hregistry.bound conn p hpeer).1 hlive).elim
      | some origin =>
        cases origin with
        | incoming => exact absurd (hregistry.incoming conn p hlive hpeer) (by omega)
        | outgoing r =>
          rw [Option.some.inj (hpeer.symm.trans (hregistry.outgoing conn r hlive).1)]
    have hclient := h.only conn hlive
    cases h.stage with
    | connecting client => exact (not_established client hclient).elim
    | waiting c client gone => exact (gone (established_inj client hclient ▸ hlive)).elim
    | up c client alive idle joined count current =>
      rw [current, established_inj client hclient]
  · exact Function.update_of_ne heq ..

end Phase

/-! ## Every order of events -/

/-- The connections to a peer that come up. -/
def upsOf (p : ℤ) (events : List PeerEvent) : ℕ :=
  events.countP fun
    | .outgoingUp q _ _ => q = p
    | _ => false

namespace Peers

variable {selfId : ℤ} {ids : List ℤ} {w : Peers} {p : ℤ} {n : ℕ}

/-- The maps are right and names are not used again. -/
structure WellFormed (selfId : ℤ) (ids : List ℤ) (w : Peers) : Prop where
  registry : Registry selfId ids w.manager w.live
  fresh : ∀ conn, conn ∉ w.used → w.live conn = none

theorem fresh_update {live : ConnId → Option Origin} {used : List ConnId} {conn : ConnId}
    (h : ∀ c, c ∉ used → live c = none) (origin : Option Origin) :
    ∀ c, c ∉ conn :: used → Function.update live conn origin c = none := by
  intro c hc
  rw [List.mem_cons, not_or] at hc
  rw [Function.update_of_ne hc.1]
  exact h c hc.2

theorem WellFormed.step (h : WellFormed selfId ids w) (event : PeerEvent) :
    WellFormed selfId ids (w.step event) := by
  cases event with
  | incomingUp conn =>
    rw [Peers.step]
    split_ifs with hused
    · exact h
    · exact ⟨h.registry.incomingUp (h.fresh conn hused), fresh_update h.fresh _⟩
  | outgoingUp q conn now =>
    rw [Peers.step]
    split_ifs with hguard
    · exact h
    · rw [not_or, not_not] at hguard
      exact ⟨h.registry.outgoingUp (h.fresh conn hguard.1) hguard.2.client_ne_none,
        fresh_update h.fresh _⟩
  | down conn now =>
    have hfresh : ∀ c, c ∉ w.used → Function.update w.live conn none c = none := by
      intro c hc
      by_cases heq : c = conn
      · rw [heq, Function.update_self]
      · rw [Function.update_of_ne heq]
        exact h.fresh c hc
    rw [Peers.step]
    split
    · exact h
    · exact ⟨h.registry.onServerDown conn, hfresh⟩
    · exact ⟨h.registry.onClientDown ‹_› now, hfresh⟩
  | receive conn chunk =>
    rw [Peers.step]
    split_ifs with hlive
    · exact h
    · exact ⟨parseAndDispatch_keeps (motive := fun m => Registry selfId ids m w.live)
        (fun m q m' hm hq => hm.registerPeerConnection hlive hq) h.registry _, h.fresh⟩
  | fire timer =>
    have hregistry : Registry selfId ids (w.manager.unset timer) w.live := { h.registry with }
    exact ⟨hregistry.onTimer timer, h.fresh⟩

theorem phase_step (hw : WellFormed selfId ids w) (hp : p ∈ ids ∧ selfId < p)
    (h : Phase w.manager w.live p n) (event : PeerEvent) (hn : n + upsOf p [event] < 2 ^ 63) :
    ∃ k ≤ n + upsOf p [event], Phase (w.step event).manager (w.step event).live p k := by
  cases event with
  | incomingUp conn =>
    refine ⟨n, Nat.le_add_right .., ?_⟩
    rw [Peers.step]
    split_ifs with hused
    · exact h
    refine h.congr rfl rfl rfl rfl fun c => ?_
    by_cases heq : c = conn
    · simp [heq, hw.fresh conn hused]
    · simp [Function.update_of_ne heq]
  | outgoingUp q conn now =>
    rw [Peers.step]
    split_ifs with hguard
    · exact ⟨n, Nat.le_add_right .., h⟩
    rw [not_or, not_not] at hguard
    by_cases heq : p = q
    · subst heq
      have hups : upsOf p [.outgoingUp p conn now] = 1 := by simp [upsOf]
      rw [hups] at hn ⊢
      exact ⟨n + 1, le_rfl, h.outgoingUp now hguard.2 hn⟩
    refine ⟨n, Nat.le_add_right .., h.congr ?_ ?_ ?_ rfl fun c => ?_⟩
    · exact Function.update_of_ne heq ..
    · exact Function.update_of_ne heq ..
    · exact Function.update_of_ne heq ..
    · by_cases hc : c = conn
      · simp [hc, hw.fresh conn hguard.1, Ne.symm heq]
      · simp [Function.update_of_ne hc]
  | down conn now =>
    refine ⟨n, Nat.le_add_right .., ?_⟩
    rw [Peers.step]
    split
    · exact h
    · rename_i hlive
      refine h.congr rfl rfl ?_ rfl fun c => ?_
      · refine if_neg fun hcurrent => ?_
        have hless := hw.registry.incoming conn p hlive (hw.registry.current p conn hcurrent)
        omega
      · by_cases hc : c = conn
        · simp [hc, hlive]
        · simp [Function.update_of_ne hc]
    · rename_i q hlive
      by_cases heq : p = q
      · subst heq
        refine h.onClientDown ?_ now hlive (by omega)
        rw [hw.registry.peers]
        exact hp.1
      have hlive' : ∀ c, Function.update w.live conn none c = some (.outgoing p) ↔
          w.live c = some (.outgoing p) := by
        intro c
        by_cases hc : c = conn
        · simp [hc, hlive, Ne.symm heq]
        · simp [Function.update_of_ne hc]
      by_cases hcurrent : w.manager.connections q = some conn
      · rw [onClientDown_of_eq hcurrent]
        refine h.congr rfl (Function.update_of_ne heq ..) (Function.update_of_ne heq ..) ?_ hlive'
        have hplanned : (w.manager.planned q now).filter (fun t => t.peer.id = p) = [] := by
          rw [List.filter_eq_nil_iff]
          intro t ht
          simp [mem_planned ht, Ne.symm heq]
        rw [PeerManager.timersOf, List.filter_append, hplanned, List.append_nil]
        rfl
      · rw [onClientDown_of_ne hcurrent]
        exact h.congr rfl rfl rfl rfl hlive'
  | receive conn chunk =>
    refine ⟨n, Nat.le_add_right .., ?_⟩
    rw [Peers.step]
    split_ifs with hlive
    · exact h
    have hkeeps := parseAndDispatch_keeps
      (motive := fun m => Registry selfId ids m w.live ∧ Phase m w.live p n)
      (fun m q m' hm hq => ⟨hm.1.registerPeerConnection hlive hq,
        hm.2.registerPeerConnection hm.1 hp.2 hq⟩) ⟨hw.registry, h⟩ (w.buffers conn ++ chunk)
    exact hkeeps.2
  | fire timer =>
    refine ⟨n, Nat.le_add_right .., ?_⟩
    by_cases heq : timer.peer.id = p
    · exact h.fire heq
    have hunset : Phase (w.manager.unset timer) w.live p n := by
      refine h.congr rfl rfl rfl ?_ fun _ => Iff.rfl
      rw [PeerManager.timersOf, PeerManager.unset, filter_erase_of_neg (by simp [heq])]
      rfl
    rw [Peers.step]
    by_cases hstale : ((w.manager.unset timer).retry timer.peer.id).pending = false ∨
        timer.token ≠ ((w.manager.unset timer).retry timer.peer.id).generation
    · rw [onTimer_of_stale hstale]
      exact hunset
    rw [not_or, Bool.not_eq_false, not_not] at hstale
    rw [onTimer_of_accepted hstale.1 hstale.2]
    exact hunset.congr (clients_connectToPeer _ (Ne.symm heq))
      (Function.update_of_ne (Ne.symm heq) ..) rfl rfl fun _ => Iff.rfl

/-! ## Runs -/

/-- What holds of a manager before it connects, and is kept as it does, holds once it started. -/
theorem start_induction {motive : PeerManager → Prop} {allPeers : List PeerInfo}
    (hinit : motive { selfId, allPeers, started := true })
    (hconnect : ∀ m peer, peer ∈ allPeers → selfId < peer.id → motive m →
      motive (m.connectToPeer peer)) :
    motive (PeerManager.start { selfId, allPeers }) := by
  suffices hall : ∀ l : List PeerInfo, (∀ peer ∈ l, peer ∈ allPeers ∧ selfId < peer.id) →
      ∀ m, motive m → motive (l.foldl PeerManager.connectToPeer m) by
    refine hall _ (fun peer hpeer => ?_) _ hinit
    simpa using hpeer
  intro l
  induction l with
  | nil => exact fun _ m hm => hm
  | cons peer l ih =>
    intro hl m hm
    obtain ⟨hmem, hless⟩ := hl peer List.mem_cons_self
    exact ih (fun q hq => hl q (List.mem_cons_of_mem _ hq)) _ (hconnect m peer hmem hless hm)

theorem wellFormed_start (selfId : ℤ) (allPeers : List PeerInfo) :
    WellFormed selfId (allPeers.map PeerInfo.id)
      { manager := PeerManager.start { selfId, allPeers } } := by
  refine ⟨?_, fun _ _ => rfl⟩
  refine start_induction (motive := fun m => Registry selfId _ m _) ?_ ?_
  · refine ⟨rfl, rfl, ?_, ?_, ?_, ?_, ?_, ?_⟩ <;> simp
  · exact fun m peer hmem hless hm => hm.connectToPeer ⟨List.mem_map_of_mem hmem, hless⟩

/-- Every peer that is connected to has a client that connects. -/
theorem connecting_foldl (l : List PeerInfo) :
    ∀ m : PeerManager, m.Connecting p ∨ p ∈ l.map PeerInfo.id →
      (l.foldl PeerManager.connectToPeer m).Connecting p := by
  induction l with
  | nil => exact fun m h => h.resolve_right List.not_mem_nil
  | cons peer l ih =>
    intro m h
    refine ih _ ?_
    by_cases heq : p = peer.id
    · rw [heq]
      exact Or.inl (m.connecting_connectToPeer peer)
    refine h.imp (fun hm => ?_) fun hmem => ?_
    · rw [PeerManager.Connecting, m.clients_connectToPeer heq]
      exact hm
    · exact (List.mem_cons.mp hmem).resolve_left heq

theorem phase_start {allPeers : List PeerInfo}
    (hp : p ∈ allPeers.map PeerInfo.id) (hless : selfId < p) :
    Phase (PeerManager.start { selfId, allPeers }) (fun _ => none) p 0 := by
  have hkept : (PeerManager.start { selfId, allPeers }).retry p = {} ∧
      (PeerManager.start { selfId, allPeers }).connections p = none ∧
      (PeerManager.start { selfId, allPeers }).timers = [] :=
    start_induction (motive := fun m => m.retry p = {} ∧ m.connections p = none ∧ m.timers = [])
      ⟨rfl, rfl, rfl⟩ fun m peer _ _ hm => hm
  have hconnecting : (PeerManager.start { selfId, allPeers }).Connecting p := by
    obtain ⟨peer, hpeer, rfl⟩ := List.mem_map.mp hp
    refine connecting_foldl _ _ (Or.inr (List.mem_map_of_mem ?_))
    simpa using ⟨hpeer, hless⟩
  obtain ⟨hretry, hcurrent, htimers⟩ := hkept
  refine ⟨?_, by simp, .connecting hconnecting ?_ ?_ ?_ hcurrent⟩
  · simp [PeerManager.timersOf, htimers]
  all_goals rw [hretry]
  rfl

theorem run_concat (selfId : ℤ) (allPeers : List PeerInfo) (events : List PeerEvent)
    (event : PeerEvent) :
    run selfId allPeers (events ++ [event]) = (run selfId allPeers events).step event := by
  rw [run, List.foldl_append]
  rfl

theorem wellFormed_run (selfId : ℤ) (allPeers : List PeerInfo) (events : List PeerEvent) :
    WellFormed selfId (allPeers.map PeerInfo.id) (run selfId allPeers events) := by
  induction events using List.reverseRecOn with
  | nil => exact wellFormed_start selfId allPeers
  | append_singleton events event ih =>
    rw [run_concat]
    exact ih.step event

/-- Every run keeps the phase of a peer, until the generation comes round. -/
theorem phase_run {allPeers : List PeerInfo}
    (hp : p ∈ allPeers.map PeerInfo.id) (hless : selfId < p) {events : List PeerEvent}
    (hups : upsOf p events < 2 ^ 63) : ∃ n ≤ upsOf p events,
      Phase (run selfId allPeers events).manager (run selfId allPeers events).live p n := by
  induction events using List.reverseRecOn with
  | nil => exact ⟨0, le_rfl, phase_start hp hless⟩
  | append_singleton events event ih =>
    have happend : upsOf p (events ++ [event]) = upsOf p events + upsOf p [event] :=
      List.countP_append
    obtain ⟨n, hn, hphase⟩ := ih (by omega)
    obtain ⟨k, hk, hnext⟩ := phase_step (wellFormed_run selfId allPeers events) ⟨hp, hless⟩ hphase
      event (by omega)
    rw [run_concat]
    exact ⟨k, by omega, hnext⟩

end Peers

/-! ## The invariant -/

/-- Exactly one of three. -/
def ExactlyOne (a b c : Prop) : Prop :=
  (a ∧ ¬ b ∧ ¬ c) ∨ (¬ a ∧ b ∧ ¬ c) ∨ (¬ a ∧ ¬ b ∧ c)

/-- The entry of a peer is the current outgoing connection. -/
def Peers.Joined (w : Peers) (p : ℤ) : Prop :=
  ∃ conn, w.manager.connections p = some conn ∧ w.manager.Established p conn ∧
    w.live conn = some (.outgoing p)

/-- Exactly one pending timer for a peer has the token that will be accepted. -/
def PeerManager.RetryPlanned (m : PeerManager) (p : ℤ) : Prop :=
  m.timers.countP (fun timer =>
    timer.peer.id = p ∧ ((m.retry p).consume timer.token).1 = true) = 1

theorem Phase.not_retryPlanned {m : PeerManager} {p : ℤ} (h : (m.retry p).pending = false) :
    ¬ m.RetryPlanned p := by
  have hrefused : ∀ token, ((m.retry p).consume token).1 = false := by
    intro token
    rw [PeerRetryPolicy.consume, if_pos (by simp [h])]
  simp [RetryPlanned, hrefused]

theorem Phase.exactlyOne {w : Peers} {p : ℤ} {n : ℕ} (h : Phase w.manager w.live p n) :
    ExactlyOne (w.manager.Connecting p) (w.Joined p) (w.manager.RetryPlanned p) := by
  cases h.stage with
  | connecting client idle apart count current =>
    refine Or.inl ⟨client, ?_, not_retryPlanned idle⟩
    rintro ⟨c, hc, -⟩
    cases current.symm.trans hc
  | up c client alive idle joined count current =>
    exact Or.inr (Or.inl ⟨fun hconnecting => not_established hconnecting client,
      ⟨c, current, client, alive⟩, not_retryPlanned idle⟩)
  | waiting c client gone pending apart count current one =>
    refine Or.inr (Or.inr ⟨fun hconnecting => not_established hconnecting client, ?_, ?_⟩)
    · rintro ⟨d, hd, -⟩
      cases current.symm.trans hd
    rw [PeerManager.timersOf, List.countP_filter] at one
    rw [PeerManager.RetryPlanned, ← one]
    refine List.countP_congr fun timer _ => ?_
    have haccepted : ((w.manager.retry p).consume timer.token).1 = true ↔
        timer.token = (w.manager.retry p).generation := by
      rw [PeerRetryPolicy.consume]
      split_ifs <;> simp_all
    simp [haccepted, and_comm]

/-- The maps and the retries of a manager, after any events. -/
theorem peer_registry (selfId : ℤ) (allPeers : List PeerInfo) (events : List PeerEvent) :
    let w := Peers.run selfId allPeers events
    (∀ conn p, w.manager.connectionPeers conn = some p →
      w.live conn ≠ none ∧ p ∈ allPeers.map PeerInfo.id ∧ p ≠ selfId) ∧
    (∀ conn p q, w.manager.connections p = some conn → w.manager.connections q = some conn →
      p = q) ∧
    (∀ p conn, w.manager.connections p = some conn →
      w.live conn ≠ none ∧ w.manager.connectionPeers conn = some p) ∧
    (∀ conn p, w.live conn = some .incoming → w.manager.connectionPeers conn = some p →
      ¬ selfId < p) ∧
    ∀ p ∈ allPeers.map PeerInfo.id, selfId < p → upsOf p events < 2 ^ 63 →
      ExactlyOne (w.manager.Connecting p) (w.Joined p) (w.manager.RetryPlanned p) := by
  have h := (Peers.wellFormed_run selfId allPeers events).registry
  refine ⟨h.bound, ?_, ?_, ?_, ?_⟩
  · exact fun conn p q hp hq =>
      Option.some.inj ((h.current p conn hp).symm.trans (h.current q conn hq))
  · exact fun p conn hp => ⟨(h.bound conn p (h.current p conn hp)).1, h.current p conn hp⟩
  · exact fun conn p hlive hbound => (h.incoming conn p hlive hbound).not_gt
  · intro p hp hless hups
    obtain ⟨n, -, hphase⟩ := Peers.phase_run hp hless hups
    exact hphase.exactlyOne

/-! ## The generation comes round -/

/-- The second of two nodes. -/
def secondPeer : PeerInfo := ⟨2, "b", 9002⟩

/-- When a connection comes up : ten and a half seconds after the one before. -/
def upAt (k : ℕ) : ℤ := k * 10500000000

/-- A connection goes down ten seconds after it came up. -/
def downAt (k : ℕ) : ℤ := upAt k + 10000000000

/-- A connection to the second node comes up and goes down. -/
def upAndDown (k : ℕ) : List PeerEvent := [.outgoingUp 2 k (upAt k), .down k (downAt k)]

/-- The timer that is set then. -/
def secondTimer (k : ℕ) : RetryTimer := ⟨secondPeer, UInt64.ofNat (2 * (k + 1)), 500⟩

/-- A connection that goes down, and the timer of the next attempt. -/
def reconnect (k : ℕ) : List PeerEvent := upAndDown k ++ [.fire (secondTimer k)]

/-- The first node after `k` connections, when it tries the next one. -/
structure Reconnected (w : Peers) (k : ℕ) : Prop where
  peers : w.manager.allPeers = pairOfPeers
  client : w.manager.Connecting 2
  count : (w.manager.retry 2).generation = UInt64.ofNat (2 * k)
  timers : w.manager.timers = []
  used : ∀ c ∈ w.used, c < k

/-- The first node after the next connection is down. -/
structure Parted (w : Peers) (k : ℕ) : Prop where
  peers : w.manager.allPeers = pairOfPeers
  client : w.manager.Established 2 k
  apart : w.manager.connections 2 = none
  pending : (w.manager.retry 2).pending = true
  count : (w.manager.retry 2).generation = UInt64.ofNat (2 * (k + 1))
  timers : w.manager.timers =
    if UInt64.ofNat (2 * (k + 1)) = 0 then []
    else [secondTimer k]
  used : ∀ c ∈ w.used, c < k + 1

theorem Reconnected.upAndDown {w : Peers} {k : ℕ} (h : Reconnected w k) :
    Parted ((upAndDown k).foldl Peers.step w) k := by
  have hfresh : k ∉ w.used := fun hk => absurd (h.used k hk) (lt_irrefl k)
  have hgeneration : (w.manager.retry 2).generation + 1 + 1 = UInt64.ofNat (2 * (k + 1)) := by
    rw [h.count, mul_add, UInt64.ofNat_add, add_assoc]
    rfl
  obtain ⟨client, hclient⟩ := Option.ne_none_iff_exists'.mp h.client.client_ne_none
  have hup : w.step (.outgoingUp 2 k (upAt k)) = { w with
      manager := (w.manager.establish 2 k).onClientUp k 2 (upAt k)
      live := Function.update w.live k (some (.outgoing 2))
      used := k :: w.used } :=
    if_neg (by simp [hfresh, h.client])
  have hdown : (w.step (.outgoingUp 2 k (upAt k))).step (.down k (downAt k)) = { w with
      manager := ((w.manager.establish 2 k).onClientUp k 2 (upAt k)).onClientDown k 2 (downAt k)
      live := Function.update (Function.update w.live k (some (.outgoing 2))) k none
      used := k :: w.used } := by
    rw [hup, Peers.step]
    simp
  have hcurrent : ((w.manager.establish 2 k).onClientUp k 2 (upAt k)).connections 2 = some k := by
    simp [onClientUp]
  have hretry : ((w.manager.establish 2 k).onClientUp k 2 (upAt k)).retry 2 =
      (w.manager.retry 2).connected (upAt k) := by
    simp [onClientUp, establish]
  show Parted ((w.step (.outgoingUp 2 k (upAt k))).step (.down k (downAt k))) k
  rw [hdown, onClientDown_of_eq hcurrent]
  refine ⟨h.peers, ?_, by simp, ?_, ?_, ?_, ?_⟩
  · simp [PeerManager.Established, onClientUp, establish, hclient]
  · rfl
  · dsimp only
    rw [Function.update_self, hretry, ← hgeneration]
    rfl
  · have hplan : (((w.manager.retry 2).connected (upAt k)).disconnected (downAt k)).1 =
        ⟨UInt64.ofNat (2 * (k + 1)), 500⟩ := by
      rw [← hgeneration]
      simp [PeerRetryPolicy.disconnected, PeerRetryPolicy.connected, downAt]
    have hpeers : ((w.manager.establish 2 k).onClientUp k 2 (upAt k)).allPeers = pairOfPeers :=
      h.peers
    have htimers : ((w.manager.establish 2 k).onClientUp k 2 (upAt k)).timers = [] := h.timers
    rw [htimers, List.nil_append, planned, hretry, hplan, hpeers]
    rfl
  · intro c hc
    rcases List.mem_cons.mp hc with rfl | hc
    · exact Nat.lt_succ_self _
    · exact (h.used c hc).trans (Nat.lt_succ_self _)

theorem Parted.fire {w : Peers} {k : ℕ} (h : Parted w k) (hk : k + 1 < 2 ^ 63) :
    Reconnected (w.step (.fire (secondTimer k))) (k + 1) := by
  have hnonzero : UInt64.ofNat (2 * (k + 1)) ≠ 0 := by
    intro hzero
    have hvalue := congrArg UInt64.toNat hzero
    rw [UInt64.toNat_ofNat', UInt64.toNat_zero, Nat.mod_eq_of_lt (by omega)] at hvalue
    omega
  have htimers : (w.manager.unset (secondTimer k)).timers = [] := by
    rw [unset, h.timers, if_neg hnonzero]
    simp
  have htoken : (secondTimer k).token =
      ((w.manager.unset (secondTimer k)).retry (secondTimer k).peer.id).generation :=
    h.count.symm
  rw [Peers.step, onTimer_of_accepted h.pending htoken]
  refine ⟨h.peers, connecting_connectToPeer .., ?_, htimers, h.used⟩
  dsimp only [connectToPeer]
  rw [show (2 : ℤ) = (secondTimer k).peer.id from rfl, Function.update_self,
    PeerRetryPolicy.consume]
  split_ifs
  · exact h.count
  · exact h.count

theorem reconnected_run (k : ℕ) (hk : k < 2 ^ 63) :
    Reconnected (Peers.run 1 pairOfPeers ((List.range k).flatMap reconnect)) k := by
  induction k with
  | zero => exact ⟨rfl, rfl, rfl, rfl, fun c hc => nomatch hc⟩
  | succ k ih =>
    have hdown := (ih (by omega)).upAndDown
    have hfire := hdown.fire hk
    rw [List.range_succ, List.flatMap_append, List.flatMap_singleton, Peers.run, List.foldl_append,
      reconnect, List.foldl_append]
    exact hfire

/-- After `2 ^ 63` connections that went down no client connects, no connection is up and no
timer is set. -/
theorem lost_retry :
    ∃ events, ¬ ExactlyOne ((Peers.run 1 pairOfPeers events).manager.Connecting 2)
      ((Peers.run 1 pairOfPeers events).Joined 2)
      ((Peers.run 1 pairOfPeers events).manager.RetryPlanned 2) := by
  refine ⟨(List.range (2 ^ 63 - 1)).flatMap reconnect ++ upAndDown (2 ^ 63 - 1), ?_⟩
  have hparted := (reconnected_run (2 ^ 63 - 1) (by norm_num)).upAndDown
  rw [Peers.run, List.foldl_append]
  rw [Peers.run] at hparted
  generalize List.foldl Peers.step _ (upAndDown (2 ^ 63 - 1)) = w at hparted ⊢
  have htimers : w.manager.timers = [] := by
    rw [hparted.timers, if_pos]
    decide
  rintro (⟨hconnecting, -⟩ | ⟨-, ⟨c, hc, -⟩, -⟩ | ⟨-, -, hplanned⟩)
  · exact Phase.not_established hconnecting hparted.client
  · cases hparted.apart.symm.trans hc
  · rw [RetryPlanned, htimers] at hplanned
    cases hplanned

end RaftKV
