import RaftKV.Accounts
import RaftKV.Cluster
import RaftKV.GhostWp

/-!
# The books of a node

What a node owes to its callers, apart from the protocol : every proposal that was admitted and
every `RequestReadIndex` call is answered once or still held, and a success has its reason in the
trace. `Sound` is what the trace alone says, so it holds also after a crash. `Books` adds what
the tables and queues of the process hold.

In the middle of a method some calls are neither answered nor in a queue, because a loop has
taken them out to answer them one after the other. They are in the `Hand` of the method. A part
of a method that leaves the hand alone and does not apply entries is `Calm`.
-/

namespace RaftKV

open RaftM GhostLogic Accounts

/-! ## The trace -/

/-- The start of a process. -/
def Event.boots : Event → Bool
  | .booted => true
  | _ => false

/-- The calls of node `v` by the events that open and close them; a new process drops them. -/
def callsOf (v : ℤ) (opens : Event → Bool) (closes : Event → Option ℕ) :
    Scheme (ℤ × Event) where
  opens x := x.1 = v && opens x.2
  closes x := if x.1 = v then closes x.2 else none
  drops x := x.1 = v && x.2.boots

section CallsOf

variable (v : ℤ) (opens : Event → Bool) (closes : Event → Option ℕ) (e : Event)

@[simp] theorem callsOf_opens : (callsOf v opens closes).opens (v, e) = opens e := by
  simp [callsOf]

@[simp] theorem callsOf_closes : (callsOf v opens closes).closes (v, e) = closes e := by
  simp [callsOf]

@[simp] theorem callsOf_drops : (callsOf v opens closes).drops (v, e) = e.boots := by
  simp [callsOf]

end CallsOf

/-- The proposals with a callback. -/
def proposalCalls (v : ℤ) : Scheme (ℤ × Event) :=
  callsOf v (fun e => match e with
    | .proposed _ _ _ callback => callback
    | _ => false) fun e => match e with
    | .proposal call _ _ _ _ _ => some call
    | _ => none

/-- The `RequestReadIndex` calls. -/
def readCalls (v : ℤ) : Scheme (ℤ × Event) :=
  callsOf v (fun e => match e with
    | .readCalled _ => true
    | _ => false) fun e => match e with
    | .readDone call _ _ _ _ => some call
    | _ => none

/-- An answer of `u` counted for a round of node `v` : the RPC was given out after the round had
started, and the answer came within the window. The node counts itself. -/
def Counted (v : ℤ) (t : List (ℤ × Event)) (start sequence : ℕ) (sentAt u : ℤ) : Prop :=
  u = v ∨ ∃ rpcId time, (v, Event.probeCounted start u rpcId time) ∈ t ∧ sequence < rpcId ∧
    time - sentAt < kMinElectionTimeoutMs * ms

/-- A round with the call was confirmed by a majority. -/
def Confirmed (M : Membership) (v : ℤ) (t : List (ℤ × Event)) (call : ℕ) : Prop :=
  ∃ start calls sequence sentAt, t[start]? = some (v, .roundStarted calls sequence sentAt) ∧
    call ∈ calls ∧ ∃ acks : Finset ℤ, (∀ u ∈ acks, u ∈ M.peers) ∧
      M.peers.length / 2 + 1 ≤ acks.card ∧ ∀ u ∈ acks, Counted v t start sequence sentAt u

/-- The call took the lease path, or a round confirmed it. -/
def Vouched (M : Membership) (v : ℤ) (t : List (ℤ × Event)) (call : ℕ) : Prop :=
  t[call]? = some (v, .readCalled true) ∨ Confirmed M v t call

/-- The reply is what `ApplyBatch` returned for the entry at an index. -/
def Replied (v : ℤ) (t : List (ℤ × Event)) (index : ℤ) (reply : Bytes) : Prop :=
  ∃ first commands results, (v, Event.applied first commands results) ∈ t ∧ first ≤ index ∧
    index < first + commands.length ∧ results[(index - first).toNat]? = some reply

/-- A success has its reason in the events before it. -/
def Justified (M : Membership) (v : ℤ) (t : List (ℤ × Event)) : Event → Prop
  | .readDone call true readIndex lastApplied _ =>
    readIndex ≤ lastApplied ∧ Vouched M v t call
  | .proposal call index command term true reply =>
    Replied v t index reply ∧ t[call]? = some (v, .proposed index term command true)
  | _ => True

/-- What the trace says of the calls of a node. -/
structure Sound (M : Membership) (v : ℤ) (t : List (ℤ × Event)) : Prop where
  proposals : ∃ l, Open (proposalCalls v) t l
  reads : ∃ l, Open (readCalls v) t l
  justified : ∀ j e, t[j]? = some (v, e) → Justified M v (t.take j) e

/-! ## Growth of the trace -/

section Growth

variable {M : Membership} {v : ℤ} {t t' : List (ℤ × Event)}

theorem getElem?_of_isPrefix {α : Type} {l l' : List α} (h : l <+: l') {i : ℕ} {a : α}
    (ha : l[i]? = some a) : l'[i]? = some a := by
  obtain ⟨r, rfl⟩ := h
  rw [List.getElem?_append_left (List.getElem?_eq_some_iff.mp ha).1, ha]

/-- An acknowledgement is counted for good. -/
theorem Counted.mono {start sequence : ℕ} {sentAt u : ℤ}
    (h : Counted v t start sequence sentAt u) (hp : t <+: t') :
    Counted v t' start sequence sentAt u := by
  refine h.imp_right ?_
  rintro ⟨rpcId, time, hmem, hrest⟩
  exact ⟨rpcId, time, hp.subset hmem, hrest⟩

/-- A round is confirmed for good. -/
theorem Confirmed.mono {call : ℕ} (h : Confirmed M v t call) (hp : t <+: t') :
    Confirmed M v t' call := by
  obtain ⟨start, calls, sequence, sentAt, hstart, hcall, acks, hacks, hq, hcount⟩ := h
  exact ⟨start, calls, sequence, sentAt, getElem?_of_isPrefix hp hstart, hcall, acks, hacks, hq,
    fun u hu => (hcount u hu).mono hp⟩

theorem Vouched.mono {call : ℕ} (h : Vouched M v t call) (hp : t <+: t') : Vouched M v t' call :=
  h.imp (getElem?_of_isPrefix hp) fun hc => hc.mono hp

/-- One more event, if it keeps both accounts and has its reason. -/
theorem Sound.concat {e : ℤ × Event} (h : Sound M v t)
    (hp : ∃ l, Open (proposalCalls v) (t ++ [e]) l) (hr : ∃ l, Open (readCalls v) (t ++ [e]) l)
    (hj : e.1 = v → Justified M v t e.2) : Sound M v (t ++ [e]) := by
  refine ⟨hp, hr, fun j x hx => ?_⟩
  rcases lt_trichotomy j t.length with hlt | rfl | hgt
  · rw [List.getElem?_append_left hlt] at hx
    rw [List.take_append_of_le_length hlt.le]
    exact h.justified j x hx
  · rw [List.getElem?_concat_length] at hx
    obtain rfl : e = (v, x) := Option.some.inj hx
    rw [List.take_left]
    exact hj rfl
  · rw [List.getElem?_eq_none (by simp; omega)] at hx
    cases hx

end Growth

/-! ## The process -/

/-- The calls of the rows of the pending table that have a callback. -/
def proposalsHeld (items : List (ℤ × Pending)) : List ℕ :=
  items.filterMap fun item => item.2.callback.map fun _ => item.2.call

/-- The requests in the queues of reads, with those in hand. -/
def readsHeld (n : Node) (hand : List ReadIndexRequest) : List ReadIndexRequest :=
  n.pendingReads ++ hand ++ n.heartbeatRounds.flatMap (fun round => round.requests) ++ n.unsentReads

/-- What a method has in hand : calls of proposals, requests of reads; and how far the pending
table and the waiting reads are known to lie ahead. -/
structure Hand where
  proposals : List ℕ := []
  reads : List ReadIndexRequest := []
  /-- The pending table is after this index. -/
  floor : ℤ
  /-- The waiting reads are after this index. -/
  served : ℤ

/-- A round : its reads are calls it was started for, and its answers were counted. -/
structure RoundFine (M : Membership) (v : ℤ) (t : List (ℤ × Event)) (rpcSequence : ℕ)
    (r : HeartbeatRound) : Prop where
  started : ∃ calls sequence, t[r.start]? = some (v, .roundStarted calls sequence r.sentAt) ∧
    sequence ≤ rpcSequence ∧ (∀ q ∈ r.requests, q.callback.call ∈ calls) ∧
    (∀ u ∈ r.acks, Counted v t r.start sequence r.sentAt u) ∧
    ∀ u k, r.probeRpcIds u = some k → sequence < k
  acks : ∀ u ∈ r.acks, u ∈ M.peers
  confirmed : r.confirmed = true → r.requests = []

/-- A row of the pending table. -/
structure RowFine (v : ℤ) (t : List (ℤ × Event)) (floor : ℤ) (item : ℤ × Pending) : Prop where
  call : t[item.2.call]? =
    some (v, .proposed item.1 item.2.term item.2.command item.2.callback.isSome)
  above : floor < item.1

/-- The completion of a batch that was applied. -/
def CompletionFine (v : ℤ) (t : List (ℤ × Event)) (completion : Completion) : Prop :=
  ∀ results, completion.results = .ok results → ∃ commands : List Bytes,
    commands.length = completion.count ∧
      (v, Event.applied completion.first commands results) ∈ t

/-- What a node holds. Under `off`, lease reads are switched off. -/
structure Books (M : Membership) (v : ℤ) (off : Prop) (h : Hand) (c : Context) : Prop where
  id : c.node.nodeId = v
  peers : c.node.allPeers = M.peers
  calm : c.node.completingReads = false
  sound : Sound M v c.trace
  proposals : Open (proposalCalls v) c.trace (h.proposals ++ proposalsHeld c.node.pending)
  rows : ∀ item ∈ c.node.pending, RowFine v c.trace h.floor item
  bytes : c.node.pendingBytes = pendingSize c.node.pending
  capacity : c.node.pending.length ≤ kMaxPending ∧ c.node.pendingBytes ≤ kMaxPendingBytes
  completions : ∀ completion ∈ c.exec.completions, CompletionFine v c.trace completion
  reads : Open (readCalls v) c.trace ((readsHeld c.node h.reads).map fun q => q.callback.call)
  rounds : c.node.heartbeatRounds.length ≤ 1
  round : ∀ r ∈ c.node.heartbeatRounds, RoundFine M v c.trace c.node.rpcSequence r
  waiting : ∀ q ∈ c.node.pendingReads, Vouched M v c.trace q.callback.call
  served : h.served ≤ c.node.lastApplied
  lease : off → c.node.leaseReads = false
  order : off → (readsHeld c.node h.reads).Pairwise fun q r => q.readIndex ≤ r.readIndex
  bound : off → ∀ q ∈ readsHeld c.node h.reads, q.readIndex ≤ c.node.commitIndex
  ahead : off → ∀ q ∈ c.node.pendingReads, h.served < q.readIndex

/-! ## What the books depend on -/

/-- The part of a context that the books read. -/
structure BookView where
  nodeId : ℤ
  allPeers : List ℤ
  completingReads : Bool
  trace : List (ℤ × Event)
  pending : List (ℤ × Pending)
  pendingBytes : ℕ
  completions : List Completion
  heartbeatRounds : List HeartbeatRound
  unsentReads : List ReadIndexRequest
  pendingReads : List ReadIndexRequest
  rpcSequence : ℕ
  lastApplied : ℤ
  commitIndex : ℤ
  leaseReads : Bool

def bookView (c : Context) : BookView :=
  ⟨c.node.nodeId, c.node.allPeers, c.node.completingReads, c.trace, c.node.pending,
    c.node.pendingBytes, c.exec.completions, c.node.heartbeatRounds, c.node.unsentReads,
    c.node.pendingReads, c.node.rpcSequence, c.node.lastApplied, c.node.commitIndex,
    c.node.leaseReads⟩

/-- The executor has a batch, or a completion to run. -/
def Executor.loaded (exec : Executor) : Bool :=
  exec.job.isSome || !exec.completions.isEmpty

/-- The part of a context that applying moves. -/
structure ApplyView where
  running : Bool
  commitIndex : ℤ
  lastApplied : ℤ
  applyInflight : Bool
  loaded : Bool

def applyView (c : Context) : ApplyView :=
  ⟨c.node.running, c.node.commitIndex, c.node.lastApplied, c.node.applyInflight, c.exec.loaded⟩

section Rules

variable {M : Membership} {v : ℤ} {off : Prop} {h : Hand} {c c' : Context}

/-- The books depend on what `bookView` shows. -/
theorem Books.congr (hb : Books M v off h c) (hv : bookView c' = bookView c) :
    Books M v off h c' := by
  have hid : c'.node.nodeId = c.node.nodeId := congrArg BookView.nodeId hv
  have hpeers : c'.node.allPeers = c.node.allPeers := congrArg BookView.allPeers hv
  have hcalm : c'.node.completingReads = c.node.completingReads :=
    congrArg BookView.completingReads hv
  have htrace : c'.trace = c.trace := congrArg BookView.trace hv
  have hpending : c'.node.pending = c.node.pending := congrArg BookView.pending hv
  have hbytes : c'.node.pendingBytes = c.node.pendingBytes := congrArg BookView.pendingBytes hv
  have hcomp : c'.exec.completions = c.exec.completions := congrArg BookView.completions hv
  have hrounds : c'.node.heartbeatRounds = c.node.heartbeatRounds :=
    congrArg BookView.heartbeatRounds hv
  have hunsent : c'.node.unsentReads = c.node.unsentReads := congrArg BookView.unsentReads hv
  have hreads : c'.node.pendingReads = c.node.pendingReads := congrArg BookView.pendingReads hv
  have hseq : c'.node.rpcSequence = c.node.rpcSequence := congrArg BookView.rpcSequence hv
  have happlied : c'.node.lastApplied = c.node.lastApplied := congrArg BookView.lastApplied hv
  have hcommit : c'.node.commitIndex = c.node.commitIndex := congrArg BookView.commitIndex hv
  have hlease : c'.node.leaseReads = c.node.leaseReads := congrArg BookView.leaseReads hv
  have hheld : readsHeld c'.node h.reads = readsHeld c.node h.reads := by
    rw [readsHeld, readsHeld, hreads, hrounds, hunsent]
  exact
    { id := hid ▸ hb.id
      peers := hpeers ▸ hb.peers
      calm := hcalm ▸ hb.calm
      sound := htrace ▸ hb.sound
      proposals := by rw [htrace, hpending]; exact hb.proposals
      rows := by rw [htrace, hpending]; exact hb.rows
      bytes := by rw [hbytes, hpending]; exact hb.bytes
      capacity := by rw [hbytes, hpending]; exact hb.capacity
      completions := by rw [hcomp, htrace]; exact hb.completions
      reads := by rw [htrace, hheld]; exact hb.reads
      rounds := hrounds ▸ hb.rounds
      round := by rw [hrounds, htrace, hseq]; exact hb.round
      waiting := by rw [hreads, htrace]; exact hb.waiting
      served := happlied ▸ hb.served
      lease := hlease ▸ hb.lease
      order := by rw [hheld]; exact hb.order
      bound := by rw [hheld, hcommit]; exact hb.bound
      ahead := by rw [hreads]; exact hb.ahead }

/-! ## Events -/

/-- An event that neither opens, closes nor drops a call. -/
def Event.bare : Event → Bool
  | .booted | .proposed _ _ _ _ | .proposal _ _ _ _ _ _ | .readCalled _ | .readDone _ _ _ _ _ =>
      false
  | _ => true

variable {e : Event} {t : List (ℤ × Event)}

theorem open_proposals_bare {l : List ℕ} (he : e.bare = true) (hl : Open (proposalCalls v) t l) :
    Open (proposalCalls v) (t ++ [(v, e)]) l := by
  refine hl.skip ?_ ?_ ?_ <;> simp only [proposalCalls, callsOf_opens, callsOf_closes,
    callsOf_drops] <;> cases e <;> first | rfl | cases he

theorem open_reads_bare {l : List ℕ}
    (he : e.bare = true) (hl : Open (readCalls v) t l) : Open (readCalls v) (t ++ [(v, e)]) l := by
  refine hl.skip ?_ ?_ ?_ <;> simp only [readCalls, callsOf_opens, callsOf_closes,
    callsOf_drops] <;> cases e <;> first | rfl | cases he

/-- An event that is no call, answer or boot needs no reason. -/
theorem Sound.bare (hs : Sound M v t) (he : e.bare = true) : Sound M v (t ++ [(v, e)]) := by
  obtain ⟨l, hl⟩ := hs.proposals
  obtain ⟨r, hr⟩ := hs.reads
  refine hs.concat ⟨l, open_proposals_bare he hl⟩ ⟨r, open_reads_bare he hr⟩ fun _ => ?_
  cases e <;> trivial

/-- A round stays fine while RPC ids are given out. -/
theorem RoundFine.mono {t' : List (ℤ × Event)} {sequence sequence' : ℕ} {r : HeartbeatRound}
    (hr : RoundFine M v t sequence r) (hp : t <+: t') (hle : sequence ≤ sequence') :
    RoundFine M v t' sequence' r := by
  obtain ⟨calls, first, hstart, hseq, hreq, hacks, hprobe⟩ := hr.started
  exact
    { hr with
      started := ⟨calls, first, getElem?_of_isPrefix hp hstart, hseq.trans hle, hreq,
        fun u hu => (hacks u hu).mono hp, hprobe⟩ }

theorem RowFine.mono {t' : List (ℤ × Event)} {floor : ℤ} {item : ℤ × Pending}
    (hr : RowFine v t floor item) (hp : t <+: t') : RowFine v t' floor item :=
  { hr with call := getElem?_of_isPrefix hp hr.call }

theorem CompletionFine.mono {t' : List (ℤ × Event)} {completion : Completion}
    (hc : CompletionFine v t completion) (hp : t <+: t') : CompletionFine v t' completion := by
  intro results hres
  obtain ⟨commands, hlen, hmem⟩ := hc results hres
  exact ⟨commands, hlen, hp.subset hmem⟩

/-- The trace grows, and the reads that are held are as before. -/
theorem Books.extend (hb : Books M v off h c) {l : List ℕ} (hp : c.trace <+: t) (hs : Sound M v t)
    (hprop : Open (proposalCalls v) t (l ++ proposalsHeld c.node.pending))
    (hreads : Open (readCalls v) t ((readsHeld c.node h.reads).map fun q => q.callback.call)) :
    Books M v off { h with proposals := l } { c with trace := t } :=
  { hb with
    sound := hs
    proposals := hprop
    rows := fun item hi => (hb.rows item hi).mono hp
    completions := fun x hx => (hb.completions x hx).mono hp
    reads := hreads
    round := fun r hr => (hb.round r hr).mono hp le_rfl
    waiting := fun q hq => (hb.waiting q hq).mono hp }

/-- An event that is no call leaves the books in order. -/
theorem Books.note (hb : Books M v off h c) (he : e.bare = true) :
    Books M v off h { c with trace := c.trace ++ [(v, e)] } :=
  hb.extend (List.prefix_append _ _) (hb.sound.bare he) (open_proposals_bare he hb.proposals)
    (open_reads_bare he hb.reads)

/-! ## Reasoning about methods -/

variable (M v) in
/-- The logic of the books : the trace grows, and a throw leaves it sound. -/
def books : GhostLogic Halt Context Unit where
  rel _ c _ c' := c.trace <+: c'.trace
  refl _ _ := List.prefix_rfl
  trans h h' := h.trans h'
  thrown _ _ c := Sound M v c.trace

variable {α β : Type} {Q : α → Unit → Context → Prop}

theorem books_getNode {f : Node → RaftM α} :
    (books M v).gwp (getNode >>= f) Q () c ↔ (books M v).gwp (f c.node) Q () c :=
  Iff.rfl

theorem books_getLog {f : AbstractLog → RaftM α} :
    (books M v).gwp (getLog >>= f) Q () c ↔ (books M v).gwp (f c.log) Q () c :=
  Iff.rfl

theorem books_forM_cons {γ : Type} {x : γ} {l : List γ} {f : γ → RaftM PUnit}
    {Q : PUnit → Unit → Context → Prop} : (books M v).gwp ((x :: l).forM f) Q () c ↔
      (books M v).gwp (f x >>= fun _ => l.forM f) Q () c :=
  Iff.rfl

variable {k : Unit → RaftM α}

/-- The fields of a node may change in between. -/
theorem books_modifyNode {f : Node → Node}
    (hk : (books M v).gwp (k ()) Q () { c with node := f c.node }) :
    (books M v).gwp (modifyNode f >>= k) Q () c :=
  gwp_bind (gwp_modify () List.prefix_rfl hk)

theorem books_modifyNode_last {f : Node → Node} {Q : Unit → Unit → Context → Prop}
    (hq : Q () () { c with node := f c.node }) : (books M v).gwp (modifyNode f) Q () c :=
  gwp_modify () List.prefix_rfl hq

theorem books_now {k : ℤ → RaftM α}
    (hk : ∀ (time : ℤ) (env : Env), (books M v).gwp (k time) Q () { c with env := env }) :
    (books M v).gwp (now >>= k) Q () c :=
  gwp_bind (gwp_modifyGet () List.prefix_rfl (hk _ { c.env with
    clock := c.env.clock + c.env.delays.headD 0, delays := c.env.delays.tail }))

theorem books_drawTimeout {k : ℤ → RaftM α}
    (hk : ∀ (time : ℤ) (env : Env), (books M v).gwp (k time) Q () { c with env := env }) :
    (books M v).gwp (drawTimeout >>= k) Q () c :=
  gwp_bind (gwp_modifyGet () List.prefix_rfl (hk _ { c.env with timeouts := c.env.timeouts.tail }))

/-- At an exception only the trace has to be sound. -/
theorem books_fail {text : String} (hs : Sound M v c.trace) :
    (books M v).gwp (fail text : RaftM α) Q () c :=
  gwp_throw hs

/-- So at a crash. -/
theorem books_crashPoint (hs : Sound M v c.trace)
    (hk : ∀ env : Env, (books M v).gwp (k ()) Q () { c with env := env }) :
    (books M v).gwp (crashPoint >>= k) Q () c := by
  refine gwp_bind ?_
  rw [crashPoint, gwp_get_bind]
  rcases c.env.crashAfter with _ | _ | n
  · exact gwp_pure (hk c.env)
  · exact gwp_throw hs
  · exact gwp_modify () List.prefix_rfl (hk _)

/-- An event is added to the trace. -/
theorem books_observe (hid : c.node.nodeId = v)
    (hk : (books M v).gwp (k ()) Q () { c with trace := c.trace ++ [(v, e)] }) :
    (books M v).gwp (observe e >>= k) Q () c := by
  subst hid
  exact gwp_bind (gwp_modify () (List.prefix_append _ _) hk)

/-- A call is named by the place of its event. -/
theorem books_mark {k : ℕ → RaftM α} (hid : c.node.nodeId = v)
    (hk : (books M v).gwp (k c.trace.length) Q () { c with trace := c.trace ++ [(v, e)] }) :
    (books M v).gwp (mark e >>= k) Q () c := by
  rw [mark, bind_assoc, gwp_get_bind, bind_assoc]
  refine books_observe hid ?_
  rw [pure_bind]
  exact hk

theorem books_sendFrom {inc : ℕ} {peer : ℤ} {message : Message} {k : Bool → RaftM α}
    (hs : Sound M v c.trace)
    (hk : ∀ sent net (env : Env), (books M v).gwp (k sent) Q () { c with net := net, env := env }) :
    (books M v).gwp (sendFrom inc peer message >>= k) Q () c := by
  rw [sendFrom, bind_assoc]
  exact books_crashPoint hs fun env => gwp_bind (gwp_modifyGet () List.prefix_rfl (hk _ _ _))

/-- A write of the log may be refused, or be the last. -/
theorem books_writeLog {operation : String} {op : AbstractLog → Except String AbstractLog}
    (hs : Sound M v c.trace)
    (hk : ∀ log (env : Env), op c.log = .ok log →
      (books M v).gwp (k ()) Q () { c with log := log, env := env }) :
    (books M v).gwp (writeLog operation op >>= k) Q () c := by
  rw [writeLog, bind_assoc, gwp_get_bind]
  dsimp only
  cases hop : op c.log with
  | error text => exact gwp_bind (books_fail hs)
  | ok log =>
    dsimp only
    split_ifs
    · rw [bind_assoc]
      exact gwp_bind (gwp_modify () List.prefix_rfl (gwp_bind (books_fail hs)))
    · rw [bind_assoc]
      exact books_crashPoint hs fun env =>
        gwp_bind (gwp_modify () List.prefix_rfl (hk log env hop))

/-- A durable write under a handler. The handler runs from where the write failed. -/
theorem books_onFailure_writeLog {operation : String}
    {op : AbstractLog → Except String AbstractLog} {cleanup : RaftM Unit} (hs : Sound M v c.trace)
    (hk : ∀ log (env : Env), op c.log = .ok log →
      (books M v).gwp (k ()) Q () { c with log := log, env := env })
    (hcleanup : ∀ env : Env, (books M v).gwp cleanup (fun _ _ c' => Sound M v c'.trace) ()
      { c with env := env }) :
    (books M v).gwp (onFailure cleanup (writeLog operation op) >>= k) Q () c := by
  have hundo : ∀ (env : Env) text, (books M v).gwp (cleanup >>= fun _ => fail text)
      (fun a => (books M v).gwp (k a) Q) () { c with env := env } := fun env _ =>
    gwp_seq (hcleanup env) fun _ _ _ _ hsound => books_fail hsound
  refine gwp_bind ?_
  rw [gwp, onFailure, wp_tryCatch, writeLog, wp_bind, wp_get]
  dsimp only
  cases hop : op c.log with
  | error text => exact hundo c.env text
  | ok log =>
    dsimp only
    split_ifs
    · exact hundo _ operation
    rw [wp_bind, crashPoint, wp_bind, wp_get]
    rcases c.env.crashAfter with _ | _ | n
    · exact ⟨(), List.prefix_rfl, hk log c.env hop⟩
    · exact ⟨(), List.prefix_rfl, hs⟩
    · exact ⟨(), List.prefix_rfl, hk log _ hop⟩

/-- A handler that leaves the trace sound. -/
theorem books_onFailure {cleanup : RaftM Unit} {body : RaftM α} (hb : (books M v).gwp body Q () c)
    (hcleanup : ∀ c', Sound M v c'.trace →
      (books M v).gwp cleanup (fun _ _ c'' => Sound M v c''.trace) () c') :
    (books M v).gwp (onFailure cleanup body) Q () c := by
  refine gwp_tryCatch hb fun e _ c' hs => ?_
  cases e with
  | crash => exact gwp_throw hs
  | failure text => exact gwp_seq (hcleanup c' hs) fun _ _ _ _ hs' => books_fail hs'

/-! ## Parts that leave the hand alone -/

variable (M v off) in
/-- A part of a method that keeps the books, whatever proposals are in hand, and what `f` shows
of the context. -/
def Leaves {δ : Type} (f : Context → δ) (m : RaftM α) : Prop :=
  ∀ h c, h.reads = [] → Books M v off h c →
    (books M v).gwp m (fun _ _ c' => Books M v off h c' ∧ f c' = f c) () c

/-- The progress of the state machine, the end of the log and the role. -/
def calmView (c : Context) : ApplyView × ℤ × Role :=
  (applyView c, c.log.lastIndex, c.node.role)

variable (M v off) in
/-- A part that applies nothing and leaves the role and the entries of the log alone. -/
abbrev Calm (m : RaftM α) : Prop :=
  Leaves M v off calmView m

variable (M v off) in
/-- A part that applies nothing. -/
abbrev Mild (m : RaftM α) : Prop :=
  Leaves M v off applyView m

/-- A calm part is mild. -/
theorem Leaves.mild {m : RaftM α} (hm : Calm M v off m) : Mild M v off m := fun h c hh hb =>
  gwp_mono (hm h c hh hb) fun _ _ _ _ ⟨hb', hv⟩ => ⟨hb', congrArg Prod.fst hv⟩

namespace Leaves

variable {δ : Type} {f : Context → δ}

theorem pure (a : α) : Leaves M v off f (Pure.pure a : RaftM α) :=
  fun _ _ _ hb => gwp_pure ⟨hb, rfl⟩

theorem bind {m : RaftM β} {k : β → RaftM α} (hm : Leaves M v off f m)
    (hk : ∀ b, Leaves M v off f (k b)) : Leaves M v off f (m >>= k) := fun h c hh hb =>
  gwp_seq (hm h c hh hb) fun b _ c' _ ⟨hb', hf⟩ =>
    gwp_mono (hk b h c' hh hb') fun _ _ _ _ ⟨hb'', hf'⟩ => ⟨hb'', hf'.trans hf⟩

theorem ite {p : Prop} [Decidable p] {m m' : RaftM α} (hm : Leaves M v off f m)
    (hm' : Leaves M v off f m') : Leaves M v off f (if p then m else m') := by
  split_ifs
  · exact hm
  · exact hm'

theorem forM {γ : Type} {l : List γ} {g : γ → RaftM PUnit} (hg : ∀ x, Leaves M v off f (g x)) :
    Leaves M v off f (l.forM g) := by
  induction l with
  | nil => exact pure ()
  | cons x l ih => exact (hg x).bind fun _ => ih

theorem getNode {k : Node → RaftM α} (hk : ∀ n, Leaves M v off f (k n)) :
    Leaves M v off f (RaftM.getNode >>= k) :=
  fun h c hh hb => hk c.node h c hh hb

theorem getLog {k : AbstractLog → RaftM α} (hk : ∀ log, Leaves M v off f (k log)) :
    Leaves M v off f (RaftM.getLog >>= k) :=
  fun h c hh hb => hk c.log h c hh hb

theorem get {k : Context → RaftM α} (hk : ∀ c, Leaves M v off f (k c)) :
    Leaves M v off f (MonadState.get >>= k) :=
  fun h c hh hb => gwp_get_bind.mpr (hk c h c hh hb)

theorem fail (text : String) : Leaves M v off f (RaftM.fail text : RaftM α) :=
  fun _ _ _ hb => books_fail hb.sound

/-- A change of fields that the books do not show. -/
theorem modifyNode {g : Node → Node}
    (hb : ∀ c : Context, bookView { c with node := g c.node } = bookView c)
    (hf : ∀ c : Context, f { c with node := g c.node } = f c) :
    Leaves M v off f (RaftM.modifyNode g) :=
  fun _ c _ hc => books_modifyNode_last ⟨hc.congr (hb c), hf c⟩

end Leaves

namespace Calm

theorem now : Calm M v off RaftM.now := fun h c _ hb => by
  rw [← bind_pure RaftM.now]
  exact books_now fun _ _ => gwp_pure ⟨hb.congr rfl, rfl⟩

theorem drawTimeout : Calm M v off RaftM.drawTimeout := fun h c _ hb => by
  rw [← bind_pure RaftM.drawTimeout]
  exact books_drawTimeout fun _ _ => gwp_pure ⟨hb.congr rfl, rfl⟩

/-- A message is not in the books. -/
theorem sendFrom (inc : ℕ) (peer : ℤ) (message : Message) :
    Calm M v off (RaftM.sendFrom inc peer message) := fun h c _ hb => by
  rw [← bind_pure (RaftM.sendFrom inc peer message)]
  exact books_sendFrom hb.sound fun _ _ _ => gwp_pure ⟨hb.congr rfl, rfl⟩

theorem send (peer : ℤ) (message : Message) : Calm M v off (RaftM.send peer message) :=
  Leaves.get fun c => sendFrom c.incarnation peer message

theorem reply (peer : ℤ) (message : Message) : Calm M v off (RaftM.reply peer message) :=
  Leaves.get fun c => (sendFrom c.replyTo peer message).bind fun _ => Leaves.pure ()

theorem broadcast (message : Message) : Calm M v off (RaftM.broadcast message) :=
  Leaves.getNode fun _ => Leaves.forM fun peer =>
    (send peer message).bind fun _ => Leaves.pure ()

theorem modifyNode {g : Node → Node}
    (hb : ∀ c : Context, bookView { c with node := g c.node } = bookView c)
    (ha : ∀ c : Context, calmView { c with node := g c.node } = calmView c) :
    Calm M v off (RaftM.modifyNode g) :=
  Leaves.modifyNode hb ha

end Calm

end Rules

end RaftKV
