import RaftKV.Bookkeeping.Reads

/-!
# The books of rounds

Sending gives out RPC ids and binds them to the round, if there is one; a round takes the reads
that wait for it and gives them back when it is confirmed or has expired. What the methods of
reads do is `Calm` : outside of the loops nothing is in hand, whatever the callbacks ask for.
-/

namespace RaftKV

open RaftM GhostLogic Accounts

variable {M : Membership} {v : ℤ} {off : Prop} {h : Hand} {c c' : Context}

/-! ## Rounds -/

theorem flatMap_dropWhile_confirmed {rs : List HeartbeatRound}
    (hr : ∀ r ∈ rs, r.confirmed = true → r.requests = []) :
    (rs.dropWhile fun r => r.confirmed).flatMap (·.requests) = rs.flatMap (·.requests) := by
  induction rs with
  | nil => rfl
  | cons r rs ih =>
    rw [List.dropWhile_cons]
    by_cases hc : r.confirmed = true
    · rw [if_pos hc, List.flatMap_cons, hr r List.mem_cons_self hc, List.nil_append]
      exact ih fun x hx => hr x (List.mem_cons_of_mem _ hx)
    · rw [if_neg hc]

/-- `BindReadIndexProbe` leaves the requests of the rounds alone. -/
theorem flatMap_bindProbe (peer : ℤ) (rpcId : ℕ) (rs : List HeartbeatRound) :
    (bindProbe peer rpcId rs).flatMap (·.requests) = rs.flatMap (·.requests) := by
  induction rs with
  | nil => rfl
  | cons r rs ih =>
    rw [bindProbe]
    split_ifs
    · rw [List.flatMap_cons, ih, List.flatMap_cons]
    · rfl

theorem length_bindProbe (peer : ℤ) (rpcId : ℕ) (rs : List HeartbeatRound) :
    (bindProbe peer rpcId rs).length = rs.length := by
  induction rs with
  | nil => rfl
  | cons r rs ih =>
    rw [bindProbe]
    split_ifs
    · rw [List.length_cons, ih, List.length_cons]
    · rfl

/-- A probe has an id that was given out after the start of the round. -/
theorem RoundFine.bindProbe {t : List (ℤ × Event)} {sequence : ℕ} (peer : ℤ) {rpcId : ℕ}
    (hid : sequence < rpcId) {rs : List HeartbeatRound}
    (hr : ∀ r ∈ rs, RoundFine M v t sequence r) :
    ∀ r ∈ bindProbe peer rpcId rs, RoundFine M v t rpcId r := by
  induction rs with
  | nil => exact fun r hr => by cases hr
  | cons r rs ih =>
    have hrest := ih fun x hx => hr x (List.mem_cons_of_mem _ hx)
    have hfirst := (hr r List.mem_cons_self).mono List.prefix_rfl hid.le
    rw [RaftKV.bindProbe]
    split_ifs
    · exact List.forall_mem_cons.mpr ⟨hfirst, hrest⟩
    refine List.forall_mem_cons.mpr ⟨?_, fun x hx =>
      (hr x (List.mem_cons_of_mem _ hx)).mono List.prefix_rfl hid.le⟩
    obtain ⟨calls, first, hstart, _, hreq, hacks, hprobe⟩ := (hr r List.mem_cons_self).started
    refine { hfirst with
      started := ⟨calls, first, hstart, by omega, hreq, hacks, fun u k hk => ?_⟩ }
    change Function.update r.probeRpcIds peer (some rpcId) u = some k at hk
    by_cases hu : u = peer
    · subst hu
      rw [Function.update_self] at hk
      cases hk
      omega
    · rw [Function.update_of_ne hu] at hk
      exact hprobe u k hk

variable {sequence : ℕ} {t : List (ℤ × Event)}

/-- A round whose requests are taken out to be answered. -/
theorem RoundFine.confirm {r : HeartbeatRound} (hr : RoundFine M v t sequence r) :
    RoundFine M v t sequence { r with confirmed := true, requests := [] } := by
  obtain ⟨calls, first, hstart, hle, _, hacks, hprobe⟩ := hr.started
  exact
    { hr with
      started := ⟨calls, first, hstart, hle, fun q hq => (List.not_mem_nil hq).elim, hacks, hprobe⟩
      confirmed := fun _ => rfl }

/-- More ids were given out, and the rounds hold the same requests. -/
theorem Books.reround (hb : Books M v off h c) (rs : List HeartbeatRound) (sequence : ℕ)
    (hflat : rs.flatMap (·.requests) = c.node.heartbeatRounds.flatMap (·.requests))
    (hlen : rs.length ≤ 1) (hround : ∀ r ∈ rs, RoundFine M v c.trace sequence r) :
    Books M v off h { c with node := { c.node with
      heartbeatRounds := rs, rpcSequence := sequence } } := by
  have hheld : ∀ hand,
      readsHeld { c.node with heartbeatRounds := rs, rpcSequence := sequence } hand =
      readsHeld c.node hand := fun hand => by rw [readsHeld, readsHeld, hflat]
  exact
    { hb with
      reads := by rw [hheld]; exact hb.reads
      rounds := hlen
      round := hround
      order := by rw [hheld]; exact hb.order
      bound := by rw [hheld]; exact hb.bound }

theorem Books.shown (hb : Books M v off h c) : Books M v off h
    (c.shows c.node.pendingReads c.node.heartbeatRounds c.node.unsentReads) :=
  hb.congr (by simp [bookView, Context.shows, hb.calm])

/-- The same requests in other queues, outside of the loops. -/
theorem Books.requeue (hb : Books M v off h c) (P hand : List ReadIndexRequest)
    (R : List HeartbeatRound) (U : List ReadIndexRequest)
    (hv : bookView c' = bookView (c.shows P R U))
    (hheld : heldIn P hand R U = readsHeld c.node h.reads) (hR : R.length ≤ 1)
    (hround : ∀ r ∈ R, RoundFine M v c.trace c.node.rpcSequence r)
    (hwaiting : ∀ q ∈ P, Vouched M v c.trace q.callback.call)
    (hahead : off → ∀ q ∈ P, h.served < q.readIndex) : Books M v off { h with reads := hand } c' :=
  (hb.shown.regroup hheld hR hround hwaiting hahead).congr hv

/-! ## Sending -/

namespace Calm

theorem nextRpcId : Calm M v off nextRpcId := fun h c _ hb => by
  rw [RaftKV.nextRpcId, books_getNode]
  split_ifs
  · exact books_fail hb.sound
  · refine books_modifyNode (gwp_pure ⟨?_, rfl⟩)
    exact hb.reround _ _ rfl hb.rounds fun r hr =>
      (hb.round r hr).mono List.prefix_rfl (Nat.le_succ _)

theorem setInflight (peer : ℤ) (flight : Node → Inflight) :
    Calm M v off (RaftM.modifyNode fun n => n.setInflight peer (flight n)) :=
  modifyNode (fun _ => rfl) fun _ => rfl

theorem sendSnapshotChunk (peer : ℤ) : Calm M v off (sendSnapshotChunk peer) := by
  refine Leaves.getNode fun n => Leaves.ite (Leaves.fail _) (nextRpcId.bind fun id => ?_)
  refine (setInflight peer _).bind fun _ => (send peer _).bind fun sent => ?_
  exact Leaves.ite (Leaves.pure ()) (setInflight peer _)

theorem sendNewEntries (peer : ℤ) : Calm M v off (sendNewEntries peer) := fun h c hh hb => by
  rw [RaftKV.sendNewEntries, books_getNode, books_getLog, RaftKV.nextRpcId, bind_assoc,
    books_getNode]
  split_ifs
  · exact books_fail hb.sound
  rw [bind_assoc]
  refine books_modifyNode ?_
  rw [pure_bind]
  cases collectEntries c.log (kMaxBatchEntries + 1) (c.node.nextIndex peer) 0 128 with
  | error text => exact books_fail hb.sound
  | ok entries =>
    refine books_now fun time env => ?_
    rw [RaftM.send, bind_assoc, gwp_get_bind]
    refine books_sendFrom hb.sound fun sent net env' => ?_
    cases sent with
    | false =>
      refine gwp_pure ⟨?_, rfl⟩
      exact (hb.reround _ (c.node.rpcSequence + 1) rfl hb.rounds
        fun r hr => (hb.round r hr).mono List.prefix_rfl (Nat.le_succ _)).congr rfl
    | true =>
      refine books_modifyNode (books_modifyNode_last ⟨?_, rfl⟩)
      exact (hb.reround _ _ (flatMap_bindProbe peer (c.node.rpcSequence + 1) _)
        (by rw [length_bindProbe]; exact hb.rounds)
        (RoundFine.bindProbe peer (Nat.lt_succ_self _) hb.round)).congr rfl

theorem retryInflight (peer : ℤ) (flight : Inflight) :
    Calm M v off (retryInflight peer flight) := by
  rw [RaftKV.retryInflight]
  refine Leaves.ite ?_ (Leaves.pure ())
  cases flight.payload with
  | none => exact Leaves.pure ()
  | some message =>
    exact (send peer message).bind fun sent =>
      Leaves.ite (setInflight peer _) (Leaves.pure ())

theorem sendAppendEntries (peer : ℤ) : Calm M v off (sendAppendEntries peer) :=
  Leaves.getNode fun _ => Leaves.getLog fun _ =>
    Leaves.ite (retryInflight peer _)
      (Leaves.ite ((setInflight peer _).bind fun _ => sendSnapshotChunk peer) (sendNewEntries peer))

theorem broadcastAppendEntries : Calm M v off broadcastAppendEntries :=
  Leaves.getNode fun _ => Leaves.forM sendAppendEntries

end Calm

/-! ## Starting rounds -/

/-- A node that is a majority by itself has confirmed its round at the start. -/
theorem confirmed_alone {start : ℕ} {calls : List ℕ}
    {sentAt : ℤ} (hv : v ∈ M.peers) (hq : M.peers.length / 2 + 1 = 1)
    (hstart : t[start]? = some (v, .roundStarted calls sequence sentAt)) {call : ℕ}
    (hcall : call ∈ calls) : Confirmed M v t call := by
  refine ⟨start, calls, sequence, sentAt, hstart, hcall, {v}, ?_, ?_, ?_⟩
  · exact fun u hu => Finset.mem_singleton.mp hu ▸ hv
  · rw [hq, Finset.card_singleton]
  · exact fun u hu => .inl (Finset.mem_singleton.mp hu)

theorem startReadRounds_spec (hv : v ∈ M.peers) (turns : ℕ) :
    Calm M v off (startReadRounds turns) := by
  induction turns with
  | zero => exact Leaves.pure ()
  | succ turns ih =>
    intro h c hh hb
    rw [startReadRounds, books_getNode]
    refine gwp_ite (fun _ => gwp_pure ⟨hb, rfl⟩) fun hstop => ?_
    push Not at hstop
    have hnone : c.node.heartbeatRounds = [] := List.isEmpty_iff.mp hstop.2
    refine books_now fun time env => books_mark hb.id ?_
    set e : Event :=
      .roundStarted (c.node.unsentReads.map (·.callback.call)) c.node.rpcSequence time
      with he
    set round : HeartbeatRound :=
      { roundId := c.node.nextRoundId + 1
        start := c.trace.length
        acks := {c.node.nodeId}
        requests := c.node.unsentReads
        sentAt := time } with hround
    have hstart : (c.trace ++ [(v, e)])[c.trace.length]? = some (v, e) :=
      List.getElem?_concat_length
    have hfine : RoundFine M v (c.trace ++ [(v, e)]) c.node.rpcSequence round :=
      { started := ⟨_, _, hstart, le_rfl, fun q hq => List.mem_map_of_mem hq,
          fun u hu => .inl (by rw [Finset.mem_singleton.mp hu, hb.id]),
          fun u k hk => by cases hk⟩
        acks := fun u hu => by rw [Finset.mem_singleton.mp hu, hb.id]; exact hv
        confirmed := fun hc => by cases hc }
    have hb₁ : Books M v off h { c with trace := c.trace ++ [(v, e)], env := env } :=
      (hb.note rfl).congr rfl
    refine books_modifyNode ?_
    refine gwp_ite (fun hmany => ?_) fun hmany => ?_
    · refine gwp_pure ⟨?_, rfl⟩
      exact hb₁.requeue c.node.pendingReads h.reads [round] []
        (by simp [bookView, Context.shows, hb.calm]) (by simp [heldIn, readsHeld, hnone, hround])
        le_rfl (fun r hr => List.mem_singleton.mp hr ▸ hfine) hb₁.waiting hb₁.ahead
    push Not at hmany
    refine books_modifyNode ?_
    set done : HeartbeatRound := { round with confirmed := true, requests := [] } with hdone
    have hb₂ : Books M v off { h with reads := c.node.unsentReads } { c with
        node := { c.node with
          nextRoundId := c.node.nextRoundId + 1, unsentReads := [], heartbeatRounds := [done] }
        trace := c.trace ++ [(v, e)]
        env := env } :=
      hb₁.requeue c.node.pendingReads c.node.unsentReads [done] []
        (by simp [bookView, Context.shows, hb.calm])
        (by simp [heldIn, readsHeld, hnone, hdone, hh])
        le_rfl (fun r hr => List.mem_singleton.mp hr ▸ hfine.confirm) hb₁.waiting hb₁.ahead
    have hvouched : ∀ q ∈ round.requests,
        Vouched M v (c.trace ++ [(v, e)]) q.callback.call := fun q hq =>
      .inr (confirmed_alone hv (by rw [← hb.peers]; exact hmany) hstart (List.mem_map_of_mem hq))
    refine gwp_seq (processConfirmedRound_spec rfl hb₂ hvouched) fun _ _ c₃ _ hp => ?_
    obtain ⟨hb₃, hv₃, hr₃⟩ := hp
    refine books_modifyNode ?_
    have hb₄ := hb₃.reround c₃.node.heartbeatRounds.tail c₃.node.rpcSequence
      (by rw [hr₃]; rfl) (by rw [hr₃]; exact Nat.zero_le 1)
      (by rw [hr₃]; exact fun r hr => by cases hr)
    refine gwp_mono (ih h _ hh ?_) fun _ _ _ _ hp => ⟨hp.1, hp.2.trans hv₃⟩
    rw [← hh] at hb₄
    exact hb₄

section

variable (hv : v ∈ M.peers)

include hv

namespace Calm

theorem tryStartReadRound : Calm M v off tryStartReadRound :=
  Leaves.getNode fun _ => startReadRounds_spec hv _

omit hv in
theorem maybeSendReadProbes : Calm M v off maybeSendReadProbes := by
  refine Leaves.getNode fun n => ?_
  cases n.heartbeatRounds with
  | nil => exact Leaves.pure ()
  | cons round rounds =>
    exact Leaves.ite (Leaves.pure ()) (Leaves.forM fun peer => Leaves.getNode fun _ =>
      Leaves.ite (Leaves.pure ()) (sendAppendEntries peer))

theorem finishReadIndexRounds : Calm M v off finishReadIndexRounds := by
  refine Leaves.bind (fun h c _ hb => books_modifyNode_last ⟨?_, rfl⟩) fun _ =>
    (tryStartReadRound hv).bind fun _ => maybeSendReadProbes
  exact hb.reround _ c.node.rpcSequence
    (flatMap_dropWhile_confirmed fun r hr => (hb.round r hr).confirmed)
    ((List.length_dropWhile_le _ _).trans hb.rounds)
    fun r hr => hb.round r ((List.dropWhile_sublist _).subset hr)

end Calm

/-! ## Reads that wait for the state machine -/

omit hv in
theorem length_le_queueWeight (qs : List ReadIndexRequest) : qs.length ≤ queueWeight qs := by
  induction qs with
  | nil => exact Nat.zero_le _
  | cons q qs ih =>
    rw [queueWeight] at ih ⊢
    rw [List.map_cons, List.sum_cons, ReadIndexRequest.weight, List.length_cons]
    omega

omit hv in
theorem Books.serve (hb : Books M v off h c)
    (hall : off → ∀ q ∈ c.node.pendingReads, c.node.lastApplied < q.readIndex) :
    Books M v off { h with served := c.node.lastApplied } c :=
  { hb with served := le_rfl, ahead := hall }

omit hv in
theorem Books.unserve {served : ℤ} (hb : Books M v off { h with served := served } c)
    (hle : h.served ≤ served) : Books M v off h c :=
  { hb with
    served := hle.trans hb.served
    ahead := fun hoff q hq => hle.trans_lt (hb.ahead hoff q hq) }

/-- What waits for the state machine is answered as far as it is applied. -/
theorem processPendingReads_spec (hh : h.reads = []) (hb : Books M v off h c) :
    (books M v).gwp processPendingReads (fun _ _ c' =>
      Books M v off { h with served := c.node.lastApplied } c' ∧
        calmView c' = calmView c) () c := by
  rw [processPendingReads, books_getNode]
  refine books_modifyNode (gwp_seq (servePendingReads_spec _ hh hb.enter
    fun _ => length_le_queueWeight _) fun _ _ c₁ _ ⟨hl, hv₁, hall⟩ => books_modifyNode ?_)
  have happlied : c₁.node.lastApplied = c.node.lastApplied :=
    congrArg (fun x => x.1.lastApplied) hv₁
  have hb₂ := hl.leave.serve hall
  rw [happlied] at hb₂
  simp only [hb.calm, Bool.false_eq_true, if_false]
  exact gwp_mono (Calm.finishReadIndexRounds hv { h with served := c.node.lastApplied } _ hh hb₂)
    fun _ _ _ _ ⟨hb₃, hv₃⟩ => ⟨hb₃, hv₃.trans hv₁⟩

theorem Calm.processPendingReads : Calm M v off processPendingReads := fun _ _ hh hb =>
  gwp_mono (processPendingReads_spec hv hh hb) fun _ _ _ _ ⟨hb', hv'⟩ =>
    ⟨hb'.unserve hb.served, hv'⟩

/-! ## Calls outside of the loops -/

omit hv in
theorem Books.atOnce (hb : Books M v off h c) (lease ok : Bool) (readIndex : ℤ) (error : String)
    (hj : ok = true → readIndex ≤ c.node.lastApplied ∧ lease = true) :
    Books M v off h { c with
      trace := c.trace ++ [(v, .readCalled lease)] ++
        [(v, .readDone c.trace.length ok readIndex c.node.lastApplied error)] } := by
  have hopen := (open_reads_called hb.reads lease).perm (List.perm_append_singleton _ _)
  refine hb.extend ((List.prefix_append _ _).trans (List.prefix_append _ _))
    ((hb.sound.called lease).answered hopen fun hok => ⟨(hj hok).1, .inl ?_⟩)
    (open_proposals_done (open_proposals_called hb.proposals lease)) (open_reads_done hopen)
  rw [List.getElem?_concat_length, (hj hok).2]

omit hv in
/-- A call that is refused, and what its callback does. -/
theorem Calm.rejectRead (error : String) {next : RaftM Unit} (hn : Calm M v off next) :
    Calm M v off (rejectRead error next) := by
  intro h c hh hb
  rw [RaftKV.rejectRead]
  refine books_mark hb.id ?_
  rw [invokeRead, bind_assoc]
  refine books_crashPoint (hb.sound.called false) fun env => ?_
  rw [bind_assoc, books_getNode, bind_assoc]
  refine books_observe hb.id ?_
  have hb₁ := hb.atOnce false false (-1) error fun hok => by cases hok
  exact gwp_seq (hn h _ hh (hb₁.congr rfl)) fun _ _ _ _ hc => gwp_pure hc

theorem Calm.roundRead (onOk onFail : Script) (hh : h.reads = []) (hb : Books M v off h c)
    (hlead : c.node.isLeader = true) :
    (books M v).gwp (roundRead RaftKV.finishReadIndexRounds onOk onFail)
      (fun _ _ c' => Books M v off h c' ∧ calmView c' = calmView c) () c := by
  rw [RaftKV.roundRead]
  refine books_mark hb.id ?_
  rw [books_getNode]
  refine books_now fun time env => books_modifyNode ?_
  simp only [hb.calm, Bool.false_eq_true, if_false]
  have hb₁ := hb.shown.enqueue (Adds.round hlead onOk onFail time) env
  refine gwp_seq (finishReadIndexRounds hv h _ hh (hb₁.congr ?_)) fun _ _ _ _ hc => gwp_pure hc
  simp [bookView, Context.shows, Context.enqueue, hb.calm]

theorem Calm.leaseRead {runOk : RaftM Unit} (hok : Nested M v runOk) (onOk onFail : Script)
    (hh : h.reads = []) (hb : Books M v off h c) (hlead : c.node.isLeader = true)
    (hon : c.node.leaseReads = true) :
    (books M v).gwp (leaseRead RaftKV.processPendingReads runOk onOk onFail)
      (fun _ _ c' => Books M v off h c' ∧ calmView c' = calmView c) () c := by
  rw [RaftKV.leaseRead]
  refine books_mark hb.id ?_
  rw [books_getNode]
  refine books_now fun time env => ?_
  refine gwp_ite (fun hwait => ?_) fun hwait => ?_
  · have hb₁ := hb.shown.enqueue (Adds.waiting hlead hon onOk onFail time) env
    refine books_modifyNode (gwp_pure ⟨hb₁.congr ?_, rfl⟩)
    simp [bookView, Context.shows, Context.enqueue, hb.calm]
  have hready : c.node.commitIndex ≤ c.node.lastApplied := not_lt.mp fun hlt => hwait (.inl hlt)
  refine books_modifyNode ?_
  rw [invokeRead, bind_assoc]
  refine books_crashPoint (hb.sound.called true) fun env' => ?_
  rw [bind_assoc, books_getNode, bind_assoc]
  refine books_observe hb.id ?_
  have hb₁ := hb.atOnce true true c.node.commitIndex "" fun _ => ⟨hready, rfl⟩
  refine gwp_seq (Looping.nested (h := h) ⟨rfl, hb₁.enter.kept.congr rfl⟩ hok)
    fun _ _ c₁ _ hp => books_modifyNode ?_
  exact gwp_seq (processPendingReads hv h _ hh hp.1.leave) fun _ _ _ _ hp₂ =>
    gwp_pure ⟨hp₂.1, hp₂.2.trans hp.2⟩

/-- `RequestReadIndex` outside of the loops, when its callbacks are calm or only add requests. -/
theorem Calm.requestReadIndexWith {runOk runFail : RaftM Unit} (hok : Nested M v runOk)
    (hf : Calm M v off runFail) (onOk onFail : Script) :
    Calm M v off (requestReadIndexWith RaftKV.processPendingReads RaftKV.finishReadIndexRounds
      runOk runFail onOk onFail) := by
  intro h c hh hb
  rw [RaftKV.requestReadIndexWith, books_getNode]
  refine gwp_ite (fun _ => rejectRead _ hf h c hh hb) fun hlead => ?_
  push Not at hlead
  refine gwp_ite (fun _ => rejectRead _ hf h c hh hb) fun hserve => ?_
  refine gwp_ite (fun _ => rejectRead _ hf h c hh hb) fun hfull => ?_
  refine books_readLeaseValid (fun env => ?_) fun env hon => ?_
  · simp only [Bool.false_eq_true, if_false]
    exact roundRead hv onOk onFail hh (hb.congr rfl) hlead
  · simp only [if_true]
    exact leaseRead hv hok onOk onFail hh (hb.congr rfl) hlead hon

theorem Calm.runScript : ∀ script : Script, Calm M v off (runScript script)
  | .done => Leaves.pure ()
  | .read onOk onFail rest =>
    (requestReadIndexWith hv (Nested.runScriptWith _ _ onOk) (runScript onFail) onOk onFail).bind
      fun _ => runScript rest

omit hv in
/-- A node that is not leader refuses what a script asks for. -/
theorem runScript_idle : ∀ (script : Script) {c : Context}, h.reads = [] → Books M v off h c →
    c.node.isLeader = false → (books M v).gwp (runScript script) (fun _ _ c' =>
      Books M v off h c' ∧ c'.node = c.node ∧ c'.exec = c.exec) () c
  | .done, _, _, hb, _ => gwp_pure ⟨hb, rfl, rfl⟩
  | .read onOk onFail rest, c, hh, hb, hidle => by
    rw [RaftKV.runScript, runScriptWith, RaftKV.requestReadIndexWith, bind_assoc, books_getNode,
      if_pos (by rw [hidle]; exact Bool.false_ne_true), RaftKV.rejectRead, bind_assoc]
    refine books_mark hb.id ?_
    rw [bind_assoc, invokeRead, bind_assoc]
    refine books_crashPoint (hb.sound.called false) fun env => ?_
    rw [bind_assoc, books_getNode, bind_assoc]
    refine books_observe hb.id ?_
    have hb₁ := hb.atOnce false false (-1)
      (if c.node.leaderId = -1 then "no leader" else "not leader") fun hok => by cases hok
    refine gwp_seq (runScript_idle onFail hh (hb₁.congr rfl) hidle)
      fun _ _ c₁ _ hp => ?_
    obtain ⟨hb₂, hn₁, hl₁⟩ := hp
    rw [pure_bind]
    exact gwp_mono (runScript_idle rest hh hb₂ (by rw [hn₁]; exact hidle))
      fun _ _ _ _ hp => ⟨hp.1, hp.2.1.trans hn₁, hp.2.2.trans hl₁⟩

theorem Calm.requestReadIndex (onOk onFail : Script) :
    Calm M v off (requestReadIndex onOk onFail) :=
  requestReadIndexWith hv (Nested.runScriptWith _ _ onOk) (runScript hv onFail) onOk onFail

end

/-! ## Acknowledgements -/

theorem RoundFine.count {r : HeartbeatRound} {peer time : ℤ}
    {rpcId : ℕ} (hr : RoundFine M v t sequence r) (hpeer : peer ∈ M.peers)
    (hprobe : r.probeRpcIds peer = some rpcId)
    (htime : time - r.sentAt < kMinElectionTimeoutMs * ms) :
    RoundFine M v (t ++ [(v, .probeCounted r.start peer rpcId time)]) sequence
      { r with acks := insert peer r.acks } := by
  obtain ⟨calls, first, hstart, hle, hreq, hacks, hids⟩ := hr.started
  have hp : t <+: t ++ [(v, .probeCounted r.start peer rpcId time)] := List.prefix_append _ _
  refine { hr with
    started := ⟨calls, first, getElem?_of_isPrefix hp hstart, hle, hreq, fun u hu => ?_, hids⟩
    acks := fun u hu => ?_ }
  · rcases Finset.mem_insert.mp hu with rfl | hu
    · exact .inr
        ⟨rpcId, time, List.mem_append_right _ List.mem_cons_self, hids u rpcId hprobe, htime⟩
    · exact (hacks u hu).mono hp
  · rcases Finset.mem_insert.mp hu with rfl | hu
    · exact hpeer
    · exact hr.acks u hu

/-- A majority confirms the calls of a round. -/
theorem RoundFine.confirms {r : HeartbeatRound}
    (hr : RoundFine M v t sequence r) (hq : M.peers.length / 2 + 1 ≤ r.acks.card)
    {q : ReadIndexRequest} (hmem : q ∈ r.requests) : Confirmed M v t q.callback.call := by
  obtain ⟨calls, first, hstart, _, hreq, hacks, _⟩ := hr.started
  exact ⟨r.start, calls, first, r.sentAt, hstart, hreq q hmem, r.acks, hr.acks, hq, hacks⟩

theorem Calm.ackReadIndexProbe {peer : ℤ} (hpeer : peer ∈ M.peers) (rpcId : ℕ) :
    Calm M v off (ackReadIndexProbe peer rpcId) := by
  intro h c hh hb
  rw [RaftKV.ackReadIndexProbe]
  refine books_now fun time env => ?_
  rw [books_getNode]
  have hb₀ : Books M v off h { c with env := env } := hb.congr rfl
  dsimp only
  rcases hR : c.node.heartbeatRounds with _ | ⟨r, _ | ⟨r', rs⟩⟩
  · exact gwp_pure ⟨hb₀, rfl⟩
  · have hfine := hb.round r (by rw [hR]; exact List.mem_singleton_self r)
    by_cases hawait : r.awaits peer rpcId = true
    · have hprobe : r.probeRpcIds peer = some rpcId := by
        rw [HeartbeatRound.awaits, Bool.and_eq_true] at hawait
        exact of_decide_eq_true hawait.2
      simp only [List.findIdx?_cons, hawait, if_true, List.getElem?_cons_zero]
      refine gwp_ite (fun _ => gwp_pure ⟨hb₀, rfl⟩) fun hlate => ?_
      refine books_observe hb.id (books_modifyNode ?_)
      have hcount := hfine.count hpeer hprobe (not_le.mp hlate)
      have hb₁ := (hb₀.note (e := .probeCounted r.start peer rpcId time) rfl).reround
        [{ r with acks := insert peer r.acks }] c.node.rpcSequence (by simp [hR]) le_rfl
        fun x hx => List.mem_singleton.mp hx ▸ hcount
      refine gwp_ite (fun hquorum => ?_) fun hquorum => ?_
      · refine books_modifyNode (gwp_mono (@processConfirmedRound_spec M v off
          { h with reads := r.requests } _ _ rfl ?_ fun q hq => ?_)
          fun _ _ _ _ ⟨hb₂, hv₂, _⟩ => ⟨?_, hv₂⟩)
        · refine hb₁.requeue c.node.pendingReads r.requests [_] c.node.unsentReads ?_ ?_ le_rfl
            (fun x hx => List.mem_singleton.mp hx ▸ hcount.confirm) hb₁.waiting hb₁.ahead
          · simp [bookView, Context.shows, hb.calm, hR]
          · simp [heldIn, readsHeld, hh]
        · rw [Node.quorumSize, hb.peers] at hquorum
          exact .inr (hcount.confirms hquorum hq)
        · rw [← hh] at hb₂
          exact hb₂
      · refine gwp_pure ⟨hb₁.congr ?_, rfl⟩
        simp [bookView, hR]
    · simp only [List.findIdx?_cons, hawait]
      exact gwp_pure ⟨hb₀, rfl⟩
  · have := hb.rounds
    rw [hR] at this
    simp at this

/-! ## Expiry and failure -/

theorem expireRounds_spec (time : ℤ) (turns : ℕ) (hh : h.reads = []) (hl : Looping M v off h c) :
    (books M v).gwp (expireRounds time turns)
      (fun _ _ c' => Looping M v off h c' ∧ calmView c' = calmView c) () c := by
  induction turns generalizing c with
  | zero => exact gwp_pure ⟨hl, rfl⟩
  | succ turns ih =>
    rw [expireRounds, books_getNode]
    rcases hR : c.node.heartbeatRounds with _ | ⟨r, _ | ⟨r', rs⟩⟩
    · exact gwp_pure ⟨hl, rfl⟩
    · dsimp only
      refine gwp_ite (fun _ => gwp_pure ⟨hl, rfl⟩) fun hyoung => ?_
      have hb := hl.kept
      have hb₁ : Books M v off { h with reads := r.requests }
          (c.shows c.node.pendingReads [] c.node.unsentReads) :=
        hb.regroup (by simp [heldIn, hR, hh]) (Nat.zero_le 1) (fun x hx => by cases hx)
          hb.waiting hb.ahead
      refine gwp_seq (failReads_spec _ r.requests hb₁ hl.completing)
        fun _ _ c₂ _ hp => books_modifyNode ?_
      obtain ⟨us, ps, t, env, rfl, -, hb₂⟩ := hp
      refine gwp_mono (ih ⟨hl.completing, ?_⟩) fun _ _ _ _ hc => hc
      rw [← hh] at hb₂
      refine hb₂.congr ?_
      simp [bookView, Context.shows, Context.enqueue, hR]
    · have := hl.kept.rounds
      change c.node.heartbeatRounds.length ≤ 1 at this
      rw [hR] at this
      simp at this

/-- The loop of `CheckReadIndexTimeout` over a queue, when answering its front keeps the books. -/
theorem expireQueue_spec (time : ℤ) (queue : Node → List ReadIndexRequest) (pop : Node → Node)
    (reason : String) (turns : ℕ)
    (hturn : ∀ {c : Context} {q rest}, Looping M v off h c → queue c.node = q :: rest →
      (books M v).gwp (invokeQueued q false (-1) reason >>= fun _ => modifyNode pop)
        (fun _ _ c' => Looping M v off h c' ∧ calmView c' = calmView c) () c)
    (hl : Looping M v off h c) : (books M v).gwp (expireQueue time queue pop reason turns)
      (fun _ _ c' => Looping M v off h c' ∧ calmView c' = calmView c) () c := by
  induction turns generalizing c with
  | zero => exact gwp_pure ⟨hl, rfl⟩
  | succ turns ih =>
    rw [expireQueue, books_getNode]
    rcases hq : queue c.node with _ | ⟨q, rest⟩
    · exact gwp_pure ⟨hl, rfl⟩
    dsimp only
    split_ifs
    · exact gwp_pure ⟨hl, rfl⟩
    · rw [← bind_assoc]
      exact gwp_seq (hturn hl hq) fun _ _ _ _ ⟨hl', hv'⟩ =>
        gwp_mono (ih hl') fun _ _ _ _ ⟨hl'', hv''⟩ => ⟨hl'', hv''.trans hv'⟩

theorem expireUnsent_turn (reason : String) {q : ReadIndexRequest}
    {rest : List ReadIndexRequest} (hl : Looping M v off h c)
    (hq : c.node.unsentReads = q :: rest) :
    (books M v).gwp (invokeQueued q false (-1) reason >>= fun _ =>
        modifyNode fun n => { n with unsentReads := n.unsentReads.tail })
      (fun _ _ c' => Looping M v off h c' ∧ calmView c' = calmView c) () c := by
  have hb := hl.kept
  refine books_invokeQueued
    (c.node.pendingReads ++ h.reads ++ c.node.heartbeatRounds.flatMap (·.requests))
    c.node.pendingReads h.reads c.node.heartbeatRounds rest hb hl.completing
    (by rw [heldIn, hq]) rfl (List.Subset.refl _) hb.rounds hb.round (fun hok => by cases hok)
    fun us ps t env _ _ _ hb' => books_modifyNode_last ⟨⟨hl.completing, hb'.congr ?_⟩, rfl⟩
  simp [bookView, Context.shows, Context.enqueue, hq]

theorem expirePending_turn (reason : String) {q : ReadIndexRequest}
    {rest : List ReadIndexRequest} (hl : Looping M v off h c)
    (hq : c.node.pendingReads = q :: rest) :
    (books M v).gwp (invokeQueued q false (-1) reason >>= fun _ =>
        modifyNode fun n => { n with pendingReads := n.pendingReads.tail })
      (fun _ _ c' => Looping M v off h c' ∧ calmView c' = calmView c) () c := by
  have hb := hl.kept
  refine books_invokeQueued [] rest h.reads c.node.heartbeatRounds c.node.unsentReads hb
    hl.completing (by rw [heldIn, hq]; rfl) (by simp [heldIn])
    (by rw [hq]; exact List.subset_cons_self q rest) hb.rounds hb.round (fun hok => by cases hok)
    fun us ps t env _ _ _ hb' => books_modifyNode_last ⟨⟨hl.completing, hb'.congr ?_⟩, rfl⟩
  simp [bookView, Context.shows, Context.enqueue, hq]

theorem Calm.checkReadIndexTimeout : Calm M v off checkReadIndexTimeout := by
  intro h c hh hb
  rw [RaftKV.checkReadIndexTimeout]
  refine books_now fun time env => ?_
  have hb₀ : Books M v off h { c with env := env } := hb.congr rfl
  rw [books_getNode]
  refine books_modifyNode (gwp_seq (expireRounds_spec time _ hh hb₀.enter)
    fun _ _ c₁ _ ⟨hl₁, hv₁⟩ => ?_)
  rw [books_getNode]
  refine gwp_seq (expireQueue_spec time _ _ _ _ (expireUnsent_turn _) hl₁)
    fun _ _ c₂ _ ⟨hl₂, hv₂⟩ => ?_
  rw [books_getNode]
  refine gwp_seq (expireQueue_spec time _ _ _ _ (expirePending_turn _) hl₂)
    fun _ _ c₃ _ ⟨hl₃, hv₃⟩ => books_modifyNode_last ⟨?_, (hv₃.trans hv₂).trans hv₁⟩
  have hleave := hl₃.leave
  rw [← hb.calm] at hleave
  exact hleave

/-- A node that is not leader fails requests, and their callbacks add none. -/
theorem failReads_idle (P : List ReadIndexRequest) (R : List HeartbeatRound)
    (U : List ReadIndexRequest) (reason : String) (hb : Books M v off h (c.shows P R U))
    (hcomp : c.node.completingReads = true) (hidle : c.node.isLeader = false) :
    (books M v).gwp (h.reads.forM fun q => invokeQueued q false (-1) reason)
      (fun _ _ c' => ∃ t env, c' = { c with trace := t, env := env } ∧
        Books M v off { h with reads := [] } (c'.shows P R U)) () c := by
  refine gwp_mono (failReads_spec reason h.reads hb hcomp)
    fun _ _ c' _ ⟨us, ps, t, env, hc', hnone, hb'⟩ => ⟨t, env, ?_, ?_⟩
  · rw [hc', (hnone hidle).1, (hnone hidle).2]
    simp [Context.enqueue]
  · rw [(hnone hidle).1, (hnone hidle).2, List.append_nil, List.append_nil] at hb'
    exact hb'

theorem clearReadIndexQueues_spec (reason : String) (hh : h.reads = []) (hb : Books M v off h c)
    (hidle : c.node.isLeader = false) :
    (books M v).gwp (clearReadIndexQueues reason) (fun _ _ c' => Books M v off h c' ∧
      c'.node = { c.node with heartbeatRounds := [], unsentReads := [], pendingReads := [] } ∧
      c'.exec = c.exec) () c := by
  obtain ⟨proposals, reads, floor, served⟩ := h
  obtain rfl : reads = [] := hh
  rw [clearReadIndexQueues, books_getNode]
  refine books_modifyNode ?_
  -- Each queue goes to the hand before it is answered : first the rounds,
  have hb₁ : Books M v off ⟨proposals, c.node.heartbeatRounds.flatMap (·.requests), floor, served⟩
      (c.shows c.node.pendingReads [] c.node.unsentReads) :=
    hb.shown.regroup (by simp [heldIn]) (Nat.zero_le 1) (fun x hx => by cases hx)
      hb.waiting hb.ahead
  refine gwp_seq (failReads_idle (c := { c with node := { c.node with completingReads := true } })
    _ _ _ reason hb₁ rfl hidle)
    fun _ _ c₂ _ hp => books_modifyNode ?_
  obtain ⟨t₂, env₂, rfl, hb₂⟩ := hp
  rw [books_getNode]
  -- then the reads that wait for a round,
  have hb₃ : Books M v off ⟨proposals, c.node.unsentReads, floor, served⟩
      ({ c with trace := t₂, env := env₂ }.shows c.node.pendingReads [] []) :=
    hb₂.regroup (by simp [heldIn]) (Nat.zero_le 1) (fun x hx => by cases hx) hb₂.waiting hb₂.ahead
  refine gwp_seq (failReads_idle (c := { c with
      node := { c.node with completingReads := true, heartbeatRounds := [] }
      trace := t₂
      env := env₂ }) _ _ _ reason hb₃ rfl hidle)
    fun _ _ c₄ _ hp => books_modifyNode ?_
  obtain ⟨t₄, env₄, rfl, hb₄⟩ := hp
  rw [books_getNode]
  -- then those that wait for the state machine.
  have hb₅ : Books M v off ⟨proposals, c.node.pendingReads, floor, served⟩
      ({ c with trace := t₄, env := env₄ }.shows [] [] []) :=
    hb₄.regroup (by simp [heldIn]) (Nat.zero_le 1) (fun x hx => by cases hx)
      (fun x hx => by cases hx) fun _ x hx => by cases hx
  refine gwp_seq (failReads_idle (c := { c with
      node := { c.node with completingReads := true, heartbeatRounds := [], unsentReads := [] }
      trace := t₄
      env := env₄ }) _ _ _ reason hb₅ rfl hidle)
    fun _ _ c₆ _ hp => books_modifyNode (books_modifyNode_last ?_)
  obtain ⟨t₆, env₆, rfl, hb₆⟩ := hp
  refine ⟨hb₆.congr ?_, rfl, rfl⟩
  simp [bookView, Context.shows, hb.calm]

end RaftKV
