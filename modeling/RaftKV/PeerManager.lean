import RaftKV.RaftCodec

/-!
# The peer manager

`PeerManager` keeps one TCP connection to every other node. A node connects to the peers with a
larger id and accepts the others; who is at the other end of an accepted connection is known
from the first frame. `_connections` has the connection to use for a peer, `_connection_peers`
the peer a connection is bound to. When an outgoing connection closes, `PeerRetryPolicy` plans
one new attempt with a token, and the timer of the attempt does nothing if the token is no
longer the one that is waited for.

Connections are numbers in place of the names that muduo gives them. The parts of muduo that
matter are fields : whether a client still connects, and the timers that are pending. The
received bytes of a connection go through `parseAndDispatch`, which is a reader of the stream of
frames (`parseAndDispatch_eq`) : however a stream of frames is cut into chunks, it delivers the
messages in order until a sender is refused (`raft_frames`).
-/

namespace RaftKV

open RaftCodec

/-! ## Retries -/

/-- `PeerRetryPolicy::Plan`. -/
structure RetryPlan where
  token : UInt64 := 0
  delayMs : ℤ := 0
  deriving DecidableEq

/-- `PeerRetryPolicy`, with times of the steady clock in nanoseconds. -/
structure PeerRetryPolicy where
  connectedAt : ℤ := 0
  generation : UInt64 := 0
  nextDelayMs : ℤ := 500
  isConnected : Bool := false
  pending : Bool := false
  deriving DecidableEq

namespace PeerRetryPolicy

/-- `PeerRetryPolicy::Connected`. -/
def connected (r : PeerRetryPolicy) (now : ℤ) : PeerRetryPolicy :=
  { r with
    isConnected := true
    connectedAt := now
    pending := false
    generation := r.generation + 1 }

/-- `PeerRetryPolicy::Disconnected`. -/
def disconnected (r : PeerRetryPolicy) (now : ℤ) : RetryPlan × PeerRetryPolicy :=
  if ¬ r.isConnected then ({}, r)
  else
    let delay := if 10 * 1000000000 ≤ now - r.connectedAt then 500 else r.nextDelayMs
    (⟨r.generation + 1, delay⟩,
      { r with
        isConnected := false
        nextDelayMs := min 2000 (delay * 2)
        pending := true
        generation := r.generation + 1 })

/-- `PeerRetryPolicy::Consume`. -/
def consume (r : PeerRetryPolicy) (token : UInt64) : Bool × PeerRetryPolicy :=
  if ¬ r.pending ∨ token ≠ r.generation then (false, r)
  else (true, { r with pending := false })

end PeerRetryPolicy

/-! ## The manager -/

/-- `PeerInfo`. -/
structure PeerInfo where
  id : ℤ
  host : String
  raftPort : ℤ
  deriving DecidableEq

/-- The text of the exception that `ValidatePeers` throws, if any. -/
def validatePeerInfos (selfId : ℤ) (peers : List PeerInfo) : Except String Unit :=
  if peers.any (fun p => p.id < 0 ∨ p.host = "" ∨ p.raftPort < 1 ∨ 65535 < p.raftPort) ∨
      ¬ (peers.map PeerInfo.id).Nodup then .error "invalid or duplicate Raft peer"
  else if selfId ∉ peers.map PeerInfo.id then .error "self is not a Raft peer"
  else .ok ()

/-- A connection, in place of its name. -/
abbrev ConnId := ℕ

/-- What muduo knows of a client : it connects, or it got a connection. -/
inductive ClientState where
  | connecting
  | established (conn : ConnId)
  deriving DecidableEq

/-- A `TcpClient` of the manager. -/
structure TcpClient where
  host : String
  port : ℤ
  name : String
  state : ClientState
  deriving DecidableEq

/-- A timer that was set with `runAfter` for a retry. -/
structure RetryTimer where
  peer : PeerInfo
  token : UInt64
  delayMs : ℤ
  deriving DecidableEq

/-- `PeerManager`, with the pending timers of its loop. -/
structure PeerManager where
  selfId : ℤ
  allPeers : List PeerInfo
  clients : ℤ → Option TcpClient := fun _ => none
  retry : ℤ → PeerRetryPolicy := fun _ => {}
  clientGeneration : UInt64 := 0
  started : Bool := false
  connections : ℤ → Option ConnId := fun _ => none
  connectionPeers : ConnId → Option ℤ := fun _ => none
  timers : List RetryTimer := []

namespace PeerManager

/-- The constructor of `PeerManager`. -/
def construct (selfId : ℤ) (allPeers : List PeerInfo) : Except String PeerManager :=
  match validatePeerInfos selfId allPeers with
  | .error text => .error text
  | .ok () => .ok { selfId, allPeers }

/-- `PeerManager::ConnectToPeer`. -/
def connectToPeer (m : PeerManager) (peer : PeerInfo) : PeerManager :=
  let generation := m.clientGeneration + 1
  { m with
    clientGeneration := generation
    clients := Function.update m.clients peer.id (some
      { host := peer.host
        port := peer.raftPort % 65536
        name := "RaftPeerClient-" ++ toString peer.id ++ "-" ++ toString generation.toNat
        state := .connecting }) }

/-- `PeerManager::Start`. -/
def start (m : PeerManager) : PeerManager :=
  if m.started then m
  else (m.allPeers.filter fun peer => m.selfId < peer.id).foldl connectToPeer
    { m with started := true }

/-- `PeerManager::OnServerConnection` of a connection that went down. -/
def onServerDown (m : PeerManager) (conn : ConnId) : PeerManager :=
  { m with
    connectionPeers := Function.update m.connectionPeers conn none
    connections := fun p => if m.connections p = some conn then none else m.connections p }

/-- `PeerManager::OnClientConnection` of a connection that came up. -/
def onClientUp (m : PeerManager) (conn : ConnId) (peerId now : ℤ) : PeerManager :=
  { m with
    retry := Function.update m.retry peerId ((m.retry peerId).connected now)
    connections := Function.update m.connections peerId (some conn)
    connectionPeers := Function.update m.connectionPeers conn (some peerId) }

/-- `PeerManager::OnClientConnection` of a connection that went down. -/
def onClientDown (m : PeerManager) (conn : ConnId) (peerId now : ℤ) : PeerManager :=
  let m := { m with connectionPeers := Function.update m.connectionPeers conn none }
  if m.connections peerId ≠ some conn then m
  else
    let (plan, policy) := (m.retry peerId).disconnected now
    let m := { m with
      connections := Function.update m.connections peerId none
      retry := Function.update m.retry peerId policy }
    if plan.token = 0 then m
    else
      match m.allPeers.find? fun peer => peer.id = peerId with
      | none => m
      | some peer => { m with timers := m.timers ++ [⟨peer, plan.token, plan.delayMs⟩] }

/-- The callback of a retry timer. -/
def onTimer (m : PeerManager) (timer : RetryTimer) : PeerManager :=
  let (accepted, policy) := (m.retry timer.peer.id).consume timer.token
  let m := { m with retry := Function.update m.retry timer.peer.id policy }
  if accepted then m.connectToPeer timer.peer else m

/-- `PeerManager::RegisterPeerConnection`; `none` is `false`, which changes nothing. -/
def registerPeerConnection (m : PeerManager) (peerId : ℤ) (conn : ConnId) : Option PeerManager :=
  if ¬ (m.allPeers.any fun peer => peer.id = peerId ∧ peerId ≠ m.selfId) then none
  else if (m.connectionPeers conn).any fun bound => bound ≠ peerId then none
  else if m.connectionPeers conn = none ∧ m.selfId < peerId then none
  else some { m with
    connectionPeers := Function.update m.connectionPeers conn (some peerId)
    connections := Function.update m.connections peerId (some conn) }

/-- How a call of `ParseAndDispatch` ends. `forceClose` ends it after a malformed frame or a
refused sender; the last two are endings that do not occur. -/
inductive Ending where
  | waiting
  | closed
  | outOfBounds
  | unfinished
  deriving DecidableEq

/-- What a call of `ParseAndDispatch` leaves, and the messages it gave to the handler. -/
structure Dispatch where
  manager : PeerManager
  buf : Bytes
  delivered : List DecodedRaftMsg
  ending : Ending

/-- The loop of `PeerManager::ParseAndDispatch`, at most `fuel` times. -/
def parseAndDispatchLoop (conn : ConnId) : ℕ → PeerManager → Bytes → Dispatch
  | 0, m, buf => ⟨m, buf, [], .unfinished⟩
  | fuel + 1, m, buf =>
    if buf.length < 4 then ⟨m, buf, [], .waiting⟩
    else
      match tryDecode buf with
      | .error .outOfBounds => ⟨m, buf, [], .outOfBounds⟩
      | .error _ => ⟨m, buf, [], .closed⟩
      | .ok (none, _) => ⟨m, buf, [], .waiting⟩
      | .ok (some message, consumed) =>
        match m.registerPeerConnection message.senderId conn with
        | none => ⟨m, buf, [], .closed⟩
        | some m =>
          let later := parseAndDispatchLoop conn fuel m (buf.drop consumed)
          { later with delivered := message :: later.delivered }

/-- `PeerManager::ParseAndDispatch`. -/
def parseAndDispatch (m : PeerManager) (conn : ConnId) (buf : Bytes) : Dispatch :=
  parseAndDispatchLoop conn (buf.length + 1) m buf

/-- `OnServerMessage` or `OnClientMessage` when a chunk arrives after the bytes that are left. -/
def receive (conn : ConnId) (d : Dispatch) (chunk : Bytes) : Dispatch :=
  let now := d.manager.parseAndDispatch conn (d.buf ++ chunk)
  { now with delivered := d.delivered ++ now.delivered }

/-- All chunks of a connection, one after the other. -/
def receiveAll (m : PeerManager) (conn : ConnId) (chunks : List Bytes) : Dispatch :=
  chunks.foldl (receive conn) ⟨m, [], [], .waiting⟩

/-- The other side of a connection : whether it is there, and the bytes that wait for it. -/
structure Output where
  connected : Bool
  queued : ℕ
  deriving DecidableEq

/-- The bound of `PeerManager::Send` on the bytes that wait. -/
def maxQueued : ℕ := 4 * 1024 * 1024

/-- `PeerManager::Send` : the connection and the frame given to it, or nothing. -/
def send (m : PeerManager) (output : ConnId → Output) (peerId : ℤ) (type : RaftMsgType)
    (payload : Bytes) : Except CodecError (Option (ConnId × Bytes)) :=
  match m.connections peerId with
  | none => .ok none
  | some conn =>
    if (output conn).connected = false then .ok none
    else if maxQueued < (output conn).queued ∨ maxQueued - kHeaderSize < payload.length ∨
        maxQueued - (output conn).queued < payload.length + kHeaderSize then .ok none
    else do
      let frame ← encode type.code m.selfId payload
      return some (conn, frame)

/-! ## The stream of frames -/

/-- The frames of a connection as values of a stream; a refused sender ends the stream. -/
def frameFramer (conn : ConnId) : Framing.Framer PeerManager UInt8 DecodedRaftMsg where
  step m raw :=
    match tryDecode raw with
    | .error _ => .invalid
    | .ok (none, _) => .needMore
    | .ok (some message, n) =>
      if (m.registerPeerConnection message.senderId conn).isSome then .complete n message
      else .invalid
  next m message := (m.registerPeerConnection message.senderId conn).getD m
  consumed_pos := by
    intro m raw n message h
    split at h
    · cases h
    · cases h
    · rename_i hdecode
      split_ifs at h
      cases h
      obtain ⟨-, rfl, -⟩ := tryDecode_complete_iff.mp hdecode
      rw [DecodedRaftMsg.length_bytes]
      omega
  consumed_le := by
    intro m raw n message h
    split at h
    · cases h
    · cases h
    · rename_i hdecode
      split_ifs at h
      cases h
      obtain ⟨-, rfl, hprefix⟩ := tryDecode_complete_iff.mp hdecode
      exact hprefix.length_le
  complete_append := by
    intro m raw n message suffix h
    split at h
    · cases h
    · cases h
    · rename_i hdecode
      rw [tryDecode_complete_append suffix hdecode]
      exact h
  invalid_append := by
    intro m raw suffix h
    split at h
    · rename_i hdecode
      rw [tryDecode_error_append suffix hdecode]
    · cases h
    · rename_i hdecode
      rw [tryDecode_complete_append suffix hdecode]
      exact h

/-- A dispatch that has taken all frames it can. -/
def dispatched (conn : ConnId) (p : Framing.Parsed PeerManager UInt8 DecodedRaftMsg) : Dispatch :=
  ⟨p.state, p.rest, p.values,
    if (frameFramer conn).step p.state p.rest = .invalid then .closed else .waiting⟩

theorem frameFramer_step (conn : ConnId) (m : PeerManager) (raw : Bytes) :
    (frameFramer conn).step m raw =
      match tryDecode raw with
      | .error _ => .invalid
      | .ok (none, _) => .needMore
      | .ok (some message, n) =>
        if (m.registerPeerConnection message.senderId conn).isSome then .complete n message
        else .invalid := rfl

variable {conn : ConnId} {m m' : PeerManager}

theorem frameFramer_step_complete {raw : Bytes} {n : ℕ} {message : DecodedRaftMsg} :
    (frameFramer conn).step m raw = .complete n message ↔ tryDecode raw = .ok (some message, n) ∧
        ∃ m', m.registerPeerConnection message.senderId conn = some m' := by
  rw [← Option.isSome_iff_exists]
  constructor
  · intro h
    rw [frameFramer_step] at h
    split at h
    · cases h
    · cases h
    · split_ifs at h with hregister
      cases h
      exact ⟨‹_›, hregister⟩
  · rintro ⟨hdecode, hregister⟩
    rw [frameFramer_step, hdecode]
    exact if_pos hregister

theorem frameFramer_next {message : DecodedRaftMsg}
    (h : m.registerPeerConnection message.senderId conn = some m') :
    (frameFramer conn).next m message = m' := by
  rw [frameFramer]
  dsimp only
  rw [h, Option.getD_some]

theorem parseAndDispatchLoop_eq (conn : ConnId) (m : PeerManager) (buf : Bytes) :
    ∀ fuel, buf.length < fuel →
      parseAndDispatchLoop conn fuel m buf = dispatched conn ((frameFramer conn).parse m buf) := by
  induction m, buf using (frameFramer conn).parse_induction with
  | value m buf n message hstep ih =>
    intro fuel hfuel
    obtain ⟨fuel, rfl⟩ : ∃ k, fuel = k + 1 := ⟨fuel - 1, by omega⟩
    have hpos := (frameFramer conn).consumed_pos hstep
    have hle := (frameFramer conn).consumed_le hstep
    obtain ⟨hdecode, m', hregister⟩ := frameFramer_step_complete.mp hstep
    obtain ⟨-, hn, hprefix⟩ := tryDecode_complete_iff.mp hdecode
    have hlong := hprefix.length_le
    rw [DecodedRaftMsg.length_bytes] at hlong
    rw [Framing.Framer.parse_complete hstep, parseAndDispatchLoop, if_neg (by omega), hdecode]
    dsimp only
    rw [hregister]
    dsimp only
    rw [frameFramer_next hregister] at ih ⊢
    rw [ih fuel (by rw [List.length_drop]; omega)]
    rfl
  | stuck m buf hstuck =>
    intro fuel hfuel
    obtain ⟨fuel, rfl⟩ : ∃ k, fuel = k + 1 := ⟨fuel - 1, by omega⟩
    rw [Framing.Framer.parse_stuck hstuck, parseAndDispatchLoop, dispatched]
    by_cases hfour : buf.length < 4
    · have hmore : (frameFramer conn).step m buf = .needMore := by
        rw [frameFramer_step, tryDecode_short (by omega), if_neg (by omega)]
      rw [if_pos hfour, hmore, if_neg (by simp)]
    rw [if_neg hfour]
    cases hdecode : tryDecode buf with
    | error error =>
      have hinvalid : (frameFramer conn).step m buf = .invalid := by
        rw [frameFramer_step, hdecode]
      rw [if_pos hinvalid]
      cases error with
      | outOfBounds => exact (tryDecode_inBounds buf hdecode).elim
      | invalidArgument text => rfl
      | lengthError text => rfl
    | ok result =>
      obtain ⟨_ | message, n⟩ := result
      · have hmore : (frameFramer conn).step m buf = .needMore := by
          rw [frameFramer_step, hdecode]
        rw [hmore, if_neg (by simp)]
      have hregister : m.registerPeerConnection message.senderId conn = none := by
        rw [Option.eq_none_iff_forall_ne_some]
        exact fun m' h => hstuck n message (frameFramer_step_complete.mpr ⟨hdecode, m', h⟩)
      have hinvalid : (frameFramer conn).step m buf = .invalid := by
        rw [frameFramer_step, hdecode]
        dsimp only
        rw [hregister]
        rfl
      dsimp only
      rw [hregister, if_pos hinvalid]

/-- A call takes all frames of the buffer that it can. -/
theorem parseAndDispatch_eq (m : PeerManager) (conn : ConnId) (buf : Bytes) :
    m.parseAndDispatch conn buf = dispatched conn ((frameFramer conn).parse m buf) :=
  parseAndDispatchLoop_eq conn m buf _ (Nat.lt_succ_self _)

theorem receive_dispatched (conn : ConnId) (m : PeerManager) (raw chunk : Bytes) :
    receive conn (dispatched conn ((frameFramer conn).parse m raw)) chunk =
      dispatched conn ((frameFramer conn).parse m (raw ++ chunk)) := by
  rw [receive, parseAndDispatch_eq, Framing.Framer.parse_append m raw chunk]
  rfl

theorem receiveAll_eq (m : PeerManager) (conn : ConnId) (chunks : List Bytes) :
    m.receiveAll conn chunks = dispatched conn ((frameFramer conn).parse m chunks.flatten) := by
  suffices hall : ∀ raw, chunks.foldl (receive conn)
      (dispatched conn ((frameFramer conn).parse m raw)) =
        dispatched conn ((frameFramer conn).parse m (raw ++ chunks.flatten)) from hall []
  induction chunks with
  | nil => simp
  | cons chunk chunks ih =>
    intro raw
    rw [List.foldl_cons, receive_dispatched, ih, List.flatten_cons, List.append_assoc]

/-- When a sender is accepted, and what that changes. -/
theorem registerPeerConnection_eq_some {p : ℤ} :
    m.registerPeerConnection p conn = some m' ↔
      (p ∈ m.allPeers.map PeerInfo.id ∧ p ≠ m.selfId) ∧
      (∀ bound, m.connectionPeers conn = some bound → bound = p) ∧
      (m.connectionPeers conn = none → p ≤ m.selfId) ∧
      m' = { m with
        connectionPeers := Function.update m.connectionPeers conn (some p)
        connections := Function.update m.connections p (some conn) } := by
  have hknown : (m.allPeers.any fun peer => peer.id = p ∧ p ≠ m.selfId) = true ↔
      p ∈ m.allPeers.map PeerInfo.id ∧ p ≠ m.selfId := by
    simp only [List.any_eq_true, decide_eq_true_eq, List.mem_map]
    constructor
    · rintro ⟨peer, hmem, hid, hne⟩
      exact ⟨⟨peer, hmem, hid⟩, hne⟩
    · rintro ⟨⟨peer, hmem, hid⟩, hne⟩
      exact ⟨peer, hmem, hid, hne⟩
  have hbound : (m.connectionPeers conn).any (fun bound => bound ≠ p) = true ↔
      ¬ ∀ bound, m.connectionPeers conn = some bound → bound = p := by
    cases m.connectionPeers conn <;> simp
  simp only [registerPeerConnection, hknown, hbound]
  constructor
  · intro h
    split_ifs at h with h₁ h₂ h₃
    exact ⟨h₁, h₂, fun hnone => not_lt.mp fun hlt => h₃ ⟨hnone, hlt⟩,
      (Option.some.inj h).symm⟩
  · rintro ⟨h₁, h₂, h₃, rfl⟩
    rw [if_neg (not_not.mpr h₁), if_neg (not_not.mpr h₂),
      if_neg fun h => absurd (h₃ h.1) (not_le.mpr h.2)]

/-- Once a sender is accepted, the connection is for that sender only. -/
theorem registerPeerConnection_next {p : ℤ}
    (h : m.registerPeerConnection p conn = some m') (q : ℤ) :
    (m'.registerPeerConnection q conn).isSome ↔ q = p := by
  obtain ⟨hknown, -, -, rfl⟩ := registerPeerConnection_eq_some.mp h
  have hself : Function.update m.connectionPeers conn (some p) conn = some p :=
    Function.update_self ..
  rw [Option.isSome_iff_exists]
  constructor
  · rintro ⟨m'', hq⟩
    obtain ⟨-, hbound, -⟩ := registerPeerConnection_eq_some.mp hq
    exact (hbound p hself).symm
  rintro rfl
  refine ⟨_, registerPeerConnection_eq_some.mpr ⟨hknown, fun bound hbound => ?_, fun hnone => ?_,
    rfl⟩⟩
  · exact (Option.some.inj (hself.symm.trans hbound)).symm
  · cases hself.symm.trans hnone

/-- The messages that are delivered : those of the first sender, if it is accepted, up to the
first message of another one. -/
def admitted (m : PeerManager) (conn : ConnId) : List DecodedRaftMsg → List DecodedRaftMsg
  | [] => []
  | first :: messages =>
    if (m.registerPeerConnection first.senderId conn).isSome then
      first :: messages.takeWhile fun message => message.senderId = first.senderId
    else []

/-- After a message the others are admitted as long as they are of its sender. -/
theorem admitted_next {p : ℤ}
    (h : m.registerPeerConnection p conn = some m') (messages : List DecodedRaftMsg) :
    m'.admitted conn messages = messages.takeWhile fun message => message.senderId = p := by
  cases messages with
  | nil => rfl
  | cons first messages =>
    have hnext := registerPeerConnection_next h first.senderId
    rw [admitted]
    by_cases hfirst : first.senderId = p
    · rw [if_pos (hnext.mpr hfirst), hfirst, List.takeWhile_cons_of_pos (by simpa using hfirst)]
    · rw [if_neg (hfirst ∘ hnext.mp), List.takeWhile_cons_of_neg (by simpa using hfirst)]

/-- The frames of some messages give the admitted ones. -/
theorem dispatched_bytes (m : PeerManager) (conn : ConnId) {messages : List DecodedRaftMsg}
    (h : ∀ message ∈ messages, message.Encodable) :
    let d := dispatched conn ((frameFramer conn).parse m (messages.flatMap DecodedRaftMsg.bytes))
    d.delivered = m.admitted conn messages ∧
      d.buf = (messages.drop (m.admitted conn messages).length).flatMap DecodedRaftMsg.bytes ∧
      d.ending = if m.admitted conn messages = messages then .waiting else .closed := by
  induction messages generalizing m with
  | nil => exact ⟨rfl, rfl, rfl⟩
  | cons first messages ih =>
    have hdecode := tryDecode_bytes (h first List.mem_cons_self)
      (messages.flatMap DecodedRaftMsg.bytes)
    rw [List.flatMap_cons]
    cases hregister : m.registerPeerConnection first.senderId conn with
    | none =>
      have hinvalid : (frameFramer conn).step m
          (first.bytes ++ messages.flatMap DecodedRaftMsg.bytes) = .invalid := by
        rw [frameFramer_step, hdecode]
        dsimp only
        rw [hregister]
        rfl
      have hadmitted : m.admitted conn (first :: messages) = [] := by
        rw [admitted, hregister]
        rfl
      rw [Framing.Framer.parse_stuck (by simp [hinvalid]), hadmitted]
      exact ⟨rfl, rfl, by rw [dispatched, if_pos hinvalid, if_neg (by simp)]⟩
    | some m' =>
      have hstep := frameFramer_step_complete.mpr ⟨hdecode, m', hregister⟩
      have hadmitted : m.admitted conn (first :: messages) =
          first :: m'.admitted conn messages := by
        rw [admitted, hregister, admitted_next hregister]
        rfl
      obtain ⟨hdelivered, hbuf, hending⟩ :=
        ih m' fun message hmessage => h message (List.mem_cons_of_mem _ hmessage)
      rw [Framing.Framer.parse_complete hstep, frameFramer_next hregister, List.drop_left,
        hadmitted]
      refine ⟨?_, ?_, ?_⟩
      · exact congrArg (first :: ·) hdelivered
      · exact hbuf
      · simp only [List.cons.injEq, true_and]
        exact hending

end PeerManager

open PeerManager in
/-- Frames and messages are in bijection, and the manager delivers the messages of a stream. -/
theorem raft_frames :
    (∀ (type : UInt8) (sender : ℤ) (payload : Bytes), isValidType type → 0 ≤ sender →
      sender ≤ 2 ^ 31 - 1 → payload.length ≤ kMaxFrameSize - 5 →
      ∃ frame, encode type sender payload = .ok frame ∧
        (∀ suffix, tryDecode (frame ++ suffix) =
          .ok (some ⟨.ofCode type, sender, payload⟩, frame.length)) ∧
        ∀ n < frame.length, tryDecode (frame.take n) = .ok (none, 0)) ∧
    (∀ data message n, tryDecode data = .ok (some message, n) →
      encode message.type.code message.senderId message.payload = .ok (data.take n)) ∧
    (∀ data, tryDecode data ≠ .error .outOfBounds) ∧
    (∀ (m : PeerManager) conn buf, (m.parseAndDispatch conn buf).ending = .waiting ∨
      (m.parseAndDispatch conn buf).ending = .closed) ∧
    ∀ (m : PeerManager) conn messages chunks, (∀ message ∈ messages, message.Encodable) →
      chunks.flatten = messages.flatMap DecodedRaftMsg.bytes →
      (m.receiveAll conn chunks).delivered = m.admitted conn messages ∧
      (m.receiveAll conn chunks).buf =
        (messages.drop (m.admitted conn messages).length).flatMap DecodedRaftMsg.bytes ∧
      (m.receiveAll conn chunks).ending =
        if m.admitted conn messages = messages then .waiting else .closed := by
  refine ⟨?_, ?_, tryDecode_inBounds, ?_, ?_⟩
  · intro type sender payload hvalid hnonneg hfits hshort
    have hencodable : DecodedRaftMsg.Encodable ⟨.ofCode type, sender, payload⟩ :=
      ⟨hnonneg, hfits, hshort⟩
    have hencode := DecodedRaftMsg.encode_eq hencodable
    dsimp only at hencode
    rw [code_ofCode hvalid] at hencode
    exact ⟨_, hencode, tryDecode_bytes hencodable, fun n hn => tryDecode_take hencodable hn⟩
  · intro data message n h
    obtain ⟨hencodable, rfl, hprefix⟩ := tryDecode_complete_iff.mp h
    rw [DecodedRaftMsg.encode_eq hencodable, ← List.prefix_iff_eq_take.mp hprefix]
  · intro m conn buf
    rw [parseAndDispatch_eq, dispatched]
    split_ifs
    · exact Or.inr rfl
    · exact Or.inl rfl
  · intro m conn messages chunks h hchunks
    rw [receiveAll_eq, hchunks]
    exact dispatched_bytes m conn h

/-- Two nodes. -/
def pairOfPeers : List PeerInfo := [⟨1, "a", 9001⟩, ⟨2, "b", 9002⟩]

/-- A well-formed frame of a sender outside of the cluster is not delivered. -/
theorem stranger_not_delivered :
    ∃ m, PeerManager.construct 1 pairOfPeers = .ok m ∧
      ∃ frame, encode RaftMsgType.kRequestVote.code 9 [] = .ok frame ∧
        tryDecode frame = .ok (some ⟨.kRequestVote, 9, []⟩, frame.length) ∧
        (m.receiveAll 0 [frame]).delivered = [] ∧ (m.receiveAll 0 [frame]).ending = .closed :=
  ⟨{ selfId := 1, allPeers := pairOfPeers }, by rfl, _, rfl, by decide, by decide, by decide⟩

end RaftKV
