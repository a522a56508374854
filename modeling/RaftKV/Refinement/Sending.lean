import RaftKV.Refinement.Logic

/-!
# Sending keeps the relation

`SendAppendEntries` of a leader : a request is a piece of the leader's log or of a snapshot of
a decided prefix of it, carries an id that no other request of the term has, and is what the
node remembers to be in flight. The id is bound to a read round together with the terms all
nodes had when it was given out.
-/

namespace RaftKV

open RaftM GhostLogic
open Consensus (lastTerm Decided)

/-! ## Collecting entries -/

/-- The entries that are collected are a piece of the log. -/
theorem collectEntries_ok {a : AbstractLog} {L : List LogEntry} (h : LogRep a L)
    (hsmall : ∀ e ∈ L, e.command.length ≤ kMaxCommandBytes) (turns : ℕ) {i : ℕ}
    (hi : a.snapshot.index ≤ i) :
    ∃ es, collectEntries a turns (i + 1) 0 128 = .ok es ∧ es <+: L.drop i := by
  obtain ⟨base, hb, -, he, -⟩ := h
  obtain ⟨k, rfl⟩ : ∃ k, i = base + k := ⟨i - base, by omega⟩
  obtain ⟨es, hes, hpre, -⟩ := collectEntries_fits (a := a)
    (fun e h => hsmall e (List.mem_of_mem_drop (he ▸ h))) turns k 0 128 (Nat.zero_le _) (by decide)
  rw [he, List.drop_drop] at hpre
  rw [hb, show (base : ℤ) + 1 + k = (base + k : ℕ) + 1 by omega] at hes
  exact ⟨es, hes, hpre⟩

namespace Setting

variable {S : Setting} {v : ℤ} {W : World} {n : Node} {Γ : Ghost} {c : Context}

/-! ## Requests in flight -/

/-- No request of the term of `v` has the id `k`. -/
def Unsent (W : World) (v : ℤ) (k : ℕ) : Prop :=
  ∀ e ∈ W.net, e.src = v → requestId e.message ≠ some (W.hist.term v, k)

variable {f : Inflight} {inc : ℕ} {peer : ℤ}

theorem LeadOK.setInflight (h : S.LeadOK W v n inc)
    (hf : S.FlightOK W.hist v inc W.net n.rpcSequence peer f) :
    S.LeadOK W v (n.setInflight peer f) inc :=
  { h with
    flights := fun u => by
      by_cases hu : u = peer
      · subst hu
        simpa [Node.setInflight] using hf
      · simpa [Node.setInflight, Function.update_of_ne hu] using h.flights u }

/-- A request with an id of its own. -/
theorem LeadOK.launch (h : S.LeadOK W v n inc) (hnew : Unsent W v n.rpcSequence)
    {time : ℤ} {m : Message}
    (hm : requestId m = some (W.hist.term v, n.rpcSequence)) (hid : f.id = n.rpcSequence)
    (hpayload : f.payload = some m) (hkind : (∃ a, m = .appendEntries a ∧ f.snapshot = false) ∨
      ∃ a, m = .installSnapshot a ∧ a.lastIncludedIndex = f.snapshotIndex)
    (hship : f.snapshot = true → S.ShippedOK W.hist v f)
    (hlease : S.synced → f.type = .kAppendEntries → f.leaseSentAt ≤ time) :
    S.LeadOK (W.send ⟨v, peer, inc, time, m⟩) v (n.setInflight peer f) inc := by
  have hmem : ∀ {e}, e ∈ (W.send ⟨v, peer, inc, time, m⟩).net →
      e ∈ W.net ∨ e = ⟨v, peer, inc, time, m⟩ := by
    intro e he
    rcases List.mem_append.mp he with he | he
    · exact .inl he
    · exact .inr (List.mem_singleton.mp he)
  refine
    { matched := h.matched
      next := h.next
      flights := fun u => ?_
      requests := fun e he hsrc k hk => ?_
      unique := fun e he e' he' hsrc hsrc' k hk hk' => ?_
      acknowledged := h.acknowledged
      confirmed := h.confirmed }
  · by_cases hu : u = peer
    · subst hu
      simp only [Node.setInflight, Function.update_self]
      refine ⟨fun _ => ⟨hid.le, _, List.mem_append_right _ (List.mem_singleton.mpr rfl), rfl, rfl,
        rfl, hpayload, ?_⟩, hship, fun hy _ ht e he hsrc a ha hterm hk => ?_⟩
      · rcases hkind with ⟨a, rfl, hs⟩ | ⟨a, rfl, hs⟩
        · obtain ⟨h₁, h₂⟩ := Prod.mk.inj (Option.some.inj hm)
          exact .inl ⟨a, rfl, h₁, h₂.trans hid.symm, hs⟩
        · obtain ⟨h₁, h₂⟩ := Prod.mk.inj (Option.some.inj hm)
          exact .inr ⟨a, rfl, h₁, h₂.trans hid.symm, hs⟩
      rcases hmem he with hold | rfl
      · refine absurd ?_ (hnew e hold hsrc)
        rw [ha, requestId]
        exact congrArg some (Prod.ext hterm (hk.trans hid))
      · exact hlease hy ht
    · simp only [Node.setInflight, Function.update_of_ne hu]
      have hflight := h.flights u
      refine ⟨fun hne => ?_, hflight.snapshot, fun hy hne ht e he hsrc a ha hterm hk => ?_⟩
      · obtain ⟨h₁, e, he, h₂⟩ := hflight.sent hne
        exact ⟨h₁, e, List.mem_append_left _ he, h₂⟩
      rcases hmem he with hold | rfl
      · exact hflight.lease hy hne ht e hold hsrc a ha hterm hk
      -- the id would be in flight to another peer already
      obtain ⟨-, e', he', hsrc', -, -, -, hkind'⟩ := hflight.sent hne
      have hseq : (n.inflight u).id = n.rpcSequence := by
        simp only at ha
        rw [ha, requestId] at hm
        exact hk.symm.trans (Prod.mk.inj (Option.some.inj hm)).2
      refine absurd ?_ (hnew e' he' hsrc')
      rcases hkind' with ⟨a', ha', h₁, h₂, -⟩ | ⟨a', ha', h₁, h₂, -⟩ <;>
      · rw [ha', requestId]
        exact congrArg some (Prod.ext h₁ (h₂.trans hseq))
  · rcases hmem he with hold | rfl
    · exact h.requests e hold hsrc k hk
    · exact (Prod.mk.inj (Option.some.inj (hm.symm.trans hk))).2.ge
  · rcases hmem he with hold | rfl <;> rcases hmem he' with hold' | rfl
    · exact h.unique e hold e' hold' hsrc hsrc' k hk hk'
    · obtain rfl := (Prod.mk.inj (Option.some.inj (hm.symm.trans hk'))).2
      exact absurd hk (hnew e hold hsrc)
    · obtain rfl := (Prod.mk.inj (Option.some.inj (hm.symm.trans hk))).2
      exact absurd hk' (hnew e' hold' hsrc')
    · rfl

/-- A request that was sent before. -/
theorem LeadOK.resend (h : S.LeadOK W v n inc) {e₀ : Envelope} (h₀ : e₀ ∈ W.net)
    (hsrc₀ : e₀.src = v) {time : ℤ} (hle : S.synced → e₀.sentAt ≤ time) :
    S.LeadOK (W.send ⟨v, peer, inc, time, e₀.message⟩) v n inc := by
  have hmem : ∀ {e}, e ∈ (W.send ⟨v, peer, inc, time, e₀.message⟩).net →
      ∃ e' ∈ W.net, (e.src = v → e'.src = v) ∧ e'.message = e.message ∧
        (S.synced → e'.sentAt ≤ e.sentAt) := by
    intro e he
    rcases List.mem_append.mp he with he | he
    · exact ⟨e, he, id, rfl, fun _ => le_rfl⟩
    · rw [List.mem_singleton.mp he]
      exact ⟨e₀, h₀, fun _ => hsrc₀, rfl, hle⟩
  refine
    { matched := h.matched
      next := h.next
      flights := fun u => ⟨fun hne => ?_, (h.flights u).snapshot,
        fun hy hne ht e he hsrc a ha hterm hk => ?_⟩
      requests := fun e he hsrc k hk => ?_
      unique := fun e he e' he' hsrc hsrc' k hk hk' => ?_
      acknowledged := h.acknowledged
      confirmed := h.confirmed }
  · obtain ⟨h₁, e, he, h₂⟩ := (h.flights u).sent hne
    exact ⟨h₁, e, List.mem_append_left _ he, h₂⟩
  · obtain ⟨e', he', hs, hm, hsent⟩ := hmem he
    exact ((h.flights u).lease hy hne ht e' he' (hs hsrc) a (hm.trans ha) hterm hk).trans (hsent hy)
  · obtain ⟨e', he', hs, hm, -⟩ := hmem he
    exact h.requests e' he' (hs hsrc) k (hm ▸ hk)
  obtain ⟨d, hd, hs, hm, -⟩ := hmem he
  obtain ⟨d', hd', hs', hm', -⟩ := hmem he'
  rw [← hm, ← hm']
  exact h.unique d hd d' hd' (hs hsrc) (hs' hsrc') k (hm ▸ hk) (hm' ▸ hk')

/-! ## Probes of read rounds -/

theorem RoundOK.bind {k : ℕ} {peer : ℤ} {r : HeartbeatRound} (h : S.RoundOK W v inc r)
    (hk : k ≤ W.ghost.alloc v inc) (hfloor : W.ghost.floor v inc k = W.hist.term) :
    S.RoundOK W v inc { r with probeRpcIds := Function.update r.probeRpcIds peer (some k) } := by
  obtain ⟨floor, h₁, h₂, h₃, h₄, h₅⟩ := h
  refine ⟨floor, h₁, h₂, h₃, h₄, fun u j hj => ?_⟩
  by_cases hu : u = peer
  · subst hu
    obtain rfl : k = j := by simpa using hj
    exact ⟨hk, hfloor ▸ h₁ u⟩
  · exact h₅ u j (by simpa [Function.update_of_ne hu] using hj)

theorem bindProbe_ok {inc k : ℕ} {peer : ℤ} (hk : k ≤ W.ghost.alloc v inc)
    (hfloor : W.ghost.floor v inc k = W.hist.term) :
    ∀ {rounds : List HeartbeatRound}, (∀ r ∈ rounds, S.RoundOK W v inc r) →
      ∀ r ∈ bindProbe peer k rounds, S.RoundOK W v inc r
  | [], _, r, hr => absurd hr (List.not_mem_nil)
  | round :: rounds, h, r, hr => by
    rw [bindProbe] at hr
    split_ifs at hr
    · rcases List.mem_cons.mp hr with rfl | hr
      · exact h r List.mem_cons_self
      · exact bindProbe_ok hk hfloor (fun r hr => h r (List.mem_cons_of_mem _ hr)) r hr
    · rcases List.mem_cons.mp hr with rfl | hr
      · exact (h round List.mem_cons_self).bind hk hfloor
      · exact h r (List.mem_cons_of_mem _ hr)

/-! ## The methods -/

section

variable (h : S.Steady v Γ c) (hr : c.node.role = .leader)
include h hr

theorem Steady.own_log : Γ.hist.log v = Γ.hist.leaderLog (Γ.hist.term v) :=
  h.shared.inv.own_log (h.core.leader hr) rfl

/-- An id is given out, or none is left. -/
theorem nextRpcId_spec :
    (S.logic v).gwp nextRpcId (fun id Γ' c' => id = c.node.rpcSequence + 1 ∧
      Γ' = Γ.allocate v c.incarnation ∧
      c' = { c with node := { c.node with rpcSequence := c.node.rpcSequence + 1 } } ∧
      S.Steady v Γ' c' ∧ Unsent (c'.world Γ') v c'.node.rpcSequence) Γ c := by
  have hgrow : (c.world Γ).Grows v ((c.world Γ).allocate v c.incarnation) :=
    World.Grows.allocate c.incarnation
  rw [nextRpcId, gwp_getNode]
  split_ifs
  · exact gwp_fail h.toSafe fun _ => by simp [expected]
  refine gwp_ghost (Γ.allocate v c.incarnation) ⟨hgrow, rfl, rfl⟩
    (gwp_modifyNode (gwp_pure ⟨rfl, rfl, rfl, ?_, fun e he hsrc hk => ?_⟩))
  · have hlead := h.loose.lead hr
    refine { h with
      shared := h.shared.allocate c.incarnation
      fresh := fun inc hlt => (if_neg fun hc => hlt.ne' hc.2).trans (h.fresh inc hlt)
      loose := { h.loose with
        core := { h.loose.core with }
        rpc := ?_
        lead := fun _ => { hlead with
          flights := fun u => { hlead.flights u with
            sent := fun hne => ?_ }
          requests := fun e he hsrc k hk => (hlead.requests e he hsrc k hk).trans (Nat.le_succ _) }
        reads := fun hr => { (h.loose.reads hr).mono hgrow rfl with }
        promise := fun hy hrun => h.loose.promise hy hrun }
      idle := fun hne => absurd hr hne }
    · simp [Context.world, Ghost.allocate, h.loose.rpc]
    · obtain ⟨h₁, h₂⟩ := (hlead.flights u).sent hne
      exact ⟨h₁.trans (Nat.le_succ _), h₂⟩
  · have := (h.loose.lead hr).requests e he hsrc _ hk
    exact absurd this (by simp)

theorem Steady.launch
    (hnew : Unsent (c.world Γ) v c.node.rpcSequence) {m : Message}
    (hp : peer ∈ S.members) (hne : peer ≠ v)
    (hmsg : S.MsgOK (c.world Γ) ⟨v, peer, c.incarnation, c.env.clock, m⟩)
    (hm : requestId m = some (Γ.hist.term v, c.node.rpcSequence))
    (hid : f.id = c.node.rpcSequence) (hpayload : f.payload = some m)
    (hkind : (∃ a, m = .appendEntries a ∧ f.snapshot = false) ∨
      ∃ a, m = .installSnapshot a ∧ a.lastIncludedIndex = f.snapshotIndex)
    (hship : f.snapshot = true → S.ShippedOK Γ.hist v f)
    (hlease : S.synced → f.type = .kAppendEntries → f.leaseSentAt ≤ c.env.clock) {env : Env}
    (henv : env.clock = c.env.clock) :
    S.Steady v Γ { c with
      net := c.net ++ [⟨v, peer, c.incarnation, c.env.clock, m⟩]
      node := c.node.setInflight peer f
      env := env } := by
  have hsent : S.Steady v Γ { c with
      net := c.net ++ [⟨v, peer, c.incarnation, c.env.clock, m⟩]
      node := c.node.setInflight peer f } :=
    { h with
      shared := (h.toSafe.send hmsg hp hne).shared
      loose := { h.loose with
        core := { h.loose.core with }
        lead := fun hr => (h.loose.lead hr).launch hnew hm hid hpayload hkind hship hlease
        reads := fun hr => { (h.loose.reads hr).mono
          (World.Grows.send (e := ⟨v, peer, c.incarnation, c.env.clock, m⟩) rfl) rfl with }
        promise := h.loose.promise }
      idle := fun hne => absurd hr hne }
  exact hsent.env henv.ge

theorem Steady.setInflight
    (hf : S.FlightOK Γ.hist v c.incarnation c.net c.node.rpcSequence peer f) :
    S.Steady v Γ { c with node := c.node.setInflight peer f } :=
  { h with
    loose := { h.loose with
      core := { h.loose.core with }
      lead := fun hr => (h.loose.lead hr).setInflight hf
      reads := fun hr => { h.loose.reads hr with }
      promise := h.loose.promise }
    idle := fun hne => absurd hr hne }

end

/-- The chunk that is sent is a piece of the snapshot in flight. -/
theorem chunkOK_of_shipped (hinv : Consensus.Inv S.members S.Good Γ.hist)
    (hl : Γ.hist.leader (Γ.hist.term v) = some v) (hf : S.ShippedOK Γ.hist v f)
    (chunk id : ℕ) (hle : f.snapshotOffset + chunk ≤ f.snapshotData.length) :
    S.ChunkOK Γ.hist v
      { term := Γ.hist.term v
        leaderId := v
        lastIncludedIndex := f.snapshotIndex
        lastIncludedTerm := f.snapshotTerm
        offset := f.snapshotOffset
        data := (f.snapshotData.drop f.snapshotOffset).take chunk
        done := f.snapshotOffset + chunk = f.snapshotData.length
        rpcId := id } := by
  obtain ⟨-, hlen, P, -, hidx, hterm, hpre, hdec, hdata⟩ := hf
  refine ⟨hl, P, hidx, hterm, hinv.own_log hl rfl ▸ hpre, hdec, fun hy => ?_⟩
  simp only [← hdata hy, Int.toNat_natCast, decide_eq_true_eq]
  refine ⟨hlen, List.take_prefix _ _, fun hdone => ?_⟩
  rw [List.length_take, List.length_drop, min_eq_left (Nat.le_sub_of_add_le' hle)]
  exact_mod_cast hdone

theorem ShippedOK.signed (hf : S.ShippedOK Γ.hist v f) (chunk id : ℕ) :
    Signed v (.installSnapshot
      { term := Γ.hist.term v
        leaderId := v
        lastIncludedIndex := f.snapshotIndex
        lastIncludedTerm := f.snapshotTerm
        offset := f.snapshotOffset
        data := (f.snapshotData.drop f.snapshotOffset).take chunk
        done := f.snapshotOffset + chunk = f.snapshotData.length
        rpcId := id + 1 }) := by
  obtain ⟨-, hlen, P, hpos, hidx, -⟩ := hf
  refine ⟨rfl, Nat.succ_ne_zero id, by simp only [← hidx]; exact_mod_cast hpos,
    Int.natCast_nonneg _, le_trans ?_ hlen⟩
  simp only [List.length_take, List.length_drop]
  omega

theorem sendSnapshotChunk_spec (h : S.Steady v Γ c) (hr : c.node.role = .leader)
    (hp : peer ∈ S.members) (hne : peer ≠ v) (hsnap : (c.node.inflight peer).snapshot = true) :
    (S.logic v).gwp (sendSnapshotChunk peer)
      (fun _ Γ' c' => S.Steady v Γ' c' ∧ Stays Γ c Γ' c') Γ c := by
  have hship := ((h.loose.lead hr).flights peer).snapshot hsnap
  have hoff := hship.1
  have hl := h.core.leader hr
  rw [sendSnapshotChunk, gwp_getNode]
  simp only [if_neg (not_lt.mpr hoff)]
  refine gwp_seq (nextRpcId_spec h hr) fun id Γ' c' _ hq => ?_
  obtain ⟨rfl, rfl, rfl, hs, hnew⟩ := hq
  refine gwp_modifyNode ?_
  have hmsg := chunkOK_of_shipped h.shared.inv hl hship
    (min c.node.snapshotChunkBytes
      ((c.node.inflight peer).snapshotData.length - (c.node.inflight peer).snapshotOffset))
    (c.node.rpcSequence + 1) (by omega)
  refine gwp_send { hs.toSafe with } (fun env henv => ?_) fun env henv => ?_
  · refine gwp_pure ⟨hs.launch hr hnew hp hne ?_ ?_ ?_ ?_ ?_ ?_ ?_ henv, rfl⟩
    · rw [h.core.term, h.core.id]
      refine ⟨hship.signed _ _, hmsg, ?_⟩
      simp [Context.world, Ghost.allocate, h.loose.rpc]
    · rw [h.core.term]
      rfl
    · rfl
    · rfl
    · exact .inr ⟨_, rfl, rfl⟩
    · exact fun _ => hship
    · exact fun _ ht => by cases ht
  · simp only [Bool.false_eq_true, if_false]
    refine gwp_modifyNode_last ⟨?_, rfl⟩
    simp only [Node.setInflight, Function.update_idem]
    refine (hs.setInflight hr ⟨fun hne => absurd ?_ hne, fun _ => ?_,
      fun _ hne => absurd ?_ hne⟩).env henv.ge
    · rfl
    · exact hship
    · rfl

theorem entriesOK_of_log (hinv : Consensus.Inv S.members S.Good Γ.hist)
    (hl : Γ.hist.leader (Γ.hist.term v) = some v) {log : AbstractLog}
    (hrep : LogRep log (Γ.hist.log v)) {i k : ℕ} (hi : log.snapshot.index ≤ i)
    (hle : i ≤ (Γ.hist.log v).length) {es : List LogEntry} (hes : es <+: (Γ.hist.log v).drop i)
    (hk : k ≤ (Γ.hist.log v).length)
    (hdec : Decided S.members Γ.hist (Γ.hist.term v) ((Γ.hist.log v).take k)) (id : ℕ) :
    S.EntriesOK Γ.hist v
      { term := Γ.hist.term v
        leaderId := v
        prevLogIndex := i
        prevLogTerm := log.getTerm i
        entries := es
        leaderCommit := k
        rpcId := id } := by
  have hown := hinv.own_log hl rfl
  refine ⟨hl, ⟨(Γ.hist.log v).take i, by simpa using hle, (hrep.getTerm_eq hi hle).symm, ?_⟩,
    (Γ.hist.log v).take k, by simpa using hk, hown ▸ List.take_prefix _ _, hdec⟩
  obtain ⟨r, hr⟩ := hes
  rw [← hown]
  exact ⟨r, by rw [List.append_assoc, hr, List.take_append_drop]⟩

/-- The commands in a log are as small as the server admits them. -/
theorem Shared.small (h : S.Shared (c.world Γ)) (w : ℤ) :
    ∀ e ∈ Γ.hist.log w, e.command.length ≤ kMaxCommandBytes := by
  intro e he
  obtain ⟨i, hi, rfl⟩ := List.getElem_of_mem he
  exact (h.inv.good (h.inv.log_matched w) hi).2.2.2.1

section

variable (h : S.Steady v Γ c) (hr : c.node.role = .leader)
include h hr

theorem Steady.setRounds
    {rounds : List HeartbeatRound}
    (hrounds : ∀ r ∈ rounds, S.RoundOK (c.world Γ) v c.incarnation r) :
    S.Steady v Γ { c with node := { c.node with heartbeatRounds := rounds } } :=
  { h with
    loose := { h.loose with
      core := { h.loose.core with }
      lead := fun hr => { h.loose.lead hr with }
      reads := fun hr => { h.loose.reads hr with rounds := hrounds }
      promise := h.loose.promise }
    idle := fun hne => absurd hr hne }

theorem Steady.bindProbe {peer : ℤ} {k : ℕ}
    (hk : k ≤ Γ.alloc v c.incarnation) (hfloor : Γ.floor v c.incarnation k = Γ.hist.term) :
    S.Steady v Γ { c with node := { c.node with
      heartbeatRounds := RaftKV.bindProbe peer k c.node.heartbeatRounds } } :=
  h.setRounds hr (bindProbe_ok hk hfloor (h.loose.reads hr).rounds)

theorem sendNewEntries_spec
    (hp : peer ∈ S.members) (hne : peer ≠ v)
    (hbase : c.log.snapshot.index < c.node.nextIndex peer) :
    (S.logic v).gwp (sendNewEntries peer)
      (fun _ Γ' c' => S.Steady v Γ' c' ∧ Stays Γ c Γ' c') Γ c := by
  have hl := h.core.leader hr
  have hrep := h.core.settled.rep
  obtain ⟨hlow, hhigh⟩ := (h.loose.lead hr).next peer hp
  obtain ⟨i, hi⟩ : ∃ i : ℕ, c.node.nextIndex peer = i + 1 :=
    ⟨(c.node.nextIndex peer - 1).toNat, by omega⟩
  have hile : i ≤ (Γ.hist.log v).length := by
    have hhigh' : c.node.nextIndex peer ≤ (Γ.hist.log v).length + 1 := hhigh
    omega
  obtain ⟨es, hes, hpre⟩ := collectEntries_ok (i := i) hrep (h.shared.small v)
    (kMaxBatchEntries + 1) (by omega)
  obtain ⟨a, k, -, hk, -, hkle, -, hdec⟩ := h.core.progress
  have hmsg := entriesOK_of_log h.shared.inv hl hrep (by omega) hile hpre hkle hdec
    (c.node.rpcSequence + 1)
  rw [sendNewEntries, gwp_getNode, gwp_getLog]
  refine gwp_seq (nextRpcId_spec h hr) fun id Γ' c' _ hq => ?_
  obtain ⟨rfl, rfl, rfl, hs, hnew⟩ := hq
  simp only [hi, hes]
  refine gwp_now fun env henv => ?_
  have hs' := hs.env henv
  refine gwp_send hs'.toSafe (fun env' henv' => ?_) fun env' henv' => ?_
  · simp only [if_true]
    refine gwp_modifyNode (gwp_modifyNode_last ⟨?_, rfl⟩)
    refine Steady.bindProbe (hs'.launch hr hnew hp hne ?_ ?_ ?_ ?_ ?_ ?_ ?_ henv') hr ?_ ?_
    · rw [h.core.term, h.core.id, hk, add_sub_cancel_right]
      refine ⟨⟨rfl, Nat.succ_ne_zero _⟩, hmsg, ?_⟩
      simp [Context.world, Ghost.allocate, h.loose.rpc]
    · rw [h.core.term]
      rfl
    · rfl
    · rfl
    · exact .inl ⟨_, rfl, rfl⟩
    · exact fun hf => by cases hf
    · exact fun _ _ => le_rfl
    · simp [Context.world, Ghost.allocate, h.loose.rpc]
    · simp [Context.world, Ghost.allocate, h.loose.rpc]
  · exact gwp_pure ⟨hs'.env henv'.ge, rfl⟩

end

/-- What a request tells does not depend on where and when it is sent. -/
theorem MsgOK.resend {e : Envelope} (h : S.MsgOK W e) (hid : (requestId e.message).isSome)
    (peer time : ℤ) : S.MsgOK W ⟨e.src, peer, e.incarnation, time, e.message⟩ := by
  refine ⟨h.1, ?_⟩
  replace h := h.2
  cases hm : e.message <;> simp only [hm] at h ⊢ <;> first | exact h | simp [requestId, hm] at hid

theorem Steady.resend (h : S.Steady v Γ c) {e : Envelope}
    (he : e ∈ c.net) (hsrc : e.src = v) (hp : peer ∈ S.members) (hne : peer ≠ v)
    (hmsg : S.MsgOK (c.world Γ) ⟨v, peer, c.incarnation, c.env.clock, e.message⟩) {env : Env}
    (henv : env.clock = c.env.clock) :
    S.Steady v Γ { c with
      net := c.net ++ [⟨v, peer, c.incarnation, c.env.clock, e.message⟩], env := env } := by
  have hsent : S.Steady v Γ { c with
      net := c.net ++ [⟨v, peer, c.incarnation, c.env.clock, e.message⟩] } :=
    { h with
      shared := (h.toSafe.send hmsg hp hne).shared
      loose := { h.loose with
        lead := fun hr => (h.loose.lead hr).resend he hsrc
          fun hy => (h.shared.lease hy).sent_le e he
        reads := fun hr => (h.loose.reads hr).mono
          (World.Grows.send (e := ⟨v, peer, c.incarnation, c.env.clock, e.message⟩) rfl) rfl
        promise := h.loose.promise } }
  exact hsent.env henv.ge

theorem retryInflight_spec (h : S.Steady v Γ c) (hr : c.node.role = .leader)
    (hp : peer ∈ S.members) (hne : peer ≠ v) (hid : (c.node.inflight peer).id ≠ 0) :
    (S.logic v).gwp (retryInflight peer (c.node.inflight peer))
      (fun _ Γ' c' => S.Steady v Γ' c' ∧ Stays Γ c Γ' c') Γ c := by
  obtain ⟨-, e, he, hsrc, -, hinc, hpayload, hkind⟩ := ((h.loose.lead hr).flights peer).sent hid
  have hreq : (requestId e.message).isSome := by
    rcases hkind with ⟨m, hm, -⟩ | ⟨m, hm, -⟩ <;> simp [hm, requestId]
  have hmsg := (h.shared.msgs e he).resend hreq peer c.env.clock
  rw [hsrc, hinc] at hmsg
  rw [retryInflight]
  split_ifs
  · simp only [hpayload]
    refine gwp_send h.toSafe (fun env henv => ?_) fun env henv => ?_
    · have hsent := h.resend he hsrc hp hne hmsg henv
      simp only [if_true]
      refine gwp_modifyNode_last ⟨hsent.setInflight hr ?_, rfl⟩
      have hflight := (hsent.loose.lead hr).flights peer
      exact ⟨hpayload ▸ hflight.sent, hflight.snapshot, hflight.lease⟩
    · exact gwp_pure ⟨h.env henv.ge, rfl⟩
  · exact gwp_pure ⟨h, Stays.refl Γ c⟩

/-- The snapshot of the log, from its start. -/
theorem Steady.shipped (h : S.Steady v Γ c) (hpos : 0 < c.log.snapshot.index)
    (hdata : f.snapshotData = c.log.snapshot.data) (hindex : f.snapshotIndex = c.log.snapshot.index)
    (hterm : f.snapshotTerm = c.log.snapshot.term) (hoffset : f.snapshotOffset = 0) :
    S.ShippedOK Γ.hist v f := by
  obtain ⟨base, hb, hle, -, ht⟩ := h.core.settled.rep
  obtain ⟨hlen, hd⟩ := h.core.settled.data
  obtain ⟨a, k, -, -, hak, hk, hsa, hdec⟩ := h.core.progress
  have hlength : ((Γ.hist.log v).take base).length = base := by
    rw [List.length_take, min_eq_left hle]
  refine ⟨hoffset ▸ Nat.zero_le _, hdata ▸ hlen, (Γ.hist.log v).take base, by omega,
    by rw [hlength, hindex, hb], by rw [hterm, ht], List.take_prefix _ _,
    hdec.initial (List.take_prefix_take_left (by omega)), fun hy => ?_⟩
  rw [hdata, hd hy hpos, hb, Int.toNat_natCast]

theorem Ready.mem_of_others (h : S.Ready v Γ c) (hp : peer ∈ c.node.others) :
    peer ∈ S.members ∧ peer ≠ v := by
  obtain ⟨hmem, hne⟩ := List.mem_filter.mp hp
  rw [h.core.peers] at hmem
  rw [h.core.id] at hne
  exact ⟨List.mem_toFinset.mpr hmem, by simpa using hne⟩

theorem sendAppendEntries_keeps (hp : peer ∈ S.members) (hne : peer ≠ v) :
    S.KeepsLead v (sendAppendEntries peer) := by
  intro Γ c h hr
  have hlead := h.loose.lead hr
  rw [sendAppendEntries, gwp_getNode, gwp_getLog]
  refine gwp_ite (fun hid => retryInflight_spec h hr hp hne hid) fun hid => ?_
  refine gwp_ite (fun hsnap => ?_) fun hsnap => ?_
  · refine gwp_modifyNode ?_
    refine gwp_mono (sendSnapshotChunk_spec (h.setInflight hr ⟨fun hne => absurd hne ?_,
      fun _ => h.shipped hsnap.1 ?_ ?_ ?_ ?_, fun _ hne => absurd hne ?_⟩) hr hp hne ?_)
      fun _ _ _ _ hq => ?_
    any_goals rfl
    · exact hid
    · exact hid
    · simp [Node.setInflight]
    · exact hq
  · have hlow := (hlead.next peer hp).1
    have hnn := h.core.settled.rep.base_le
    exact sendNewEntries_spec h hr hp hne (by omega)

theorem broadcastAppendEntries_keeps : S.KeepsLead v broadcastAppendEntries := by
  intro Γ c h hr
  rw [broadcastAppendEntries, gwp_getNode]
  refine KeepsLead.forM (fun peer hpeer => ?_) Γ c h hr
  obtain ⟨hp, hne⟩ := h.toReady.mem_of_others hpeer
  exact sendAppendEntries_keeps hp hne

end Setting

end RaftKV
