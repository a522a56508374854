import RaftKV.Refinement.Sending

/-!
# Reads keep the relation

The read index of a leader that has committed an entry of its term covers every proposal that
has succeeded in its term or before (`Steady.covered`). What succeeded in a later term was
decided by a leader that a majority had voted for, so a majority had entered that term
(`Shared.later_quorum`). A confirmed round excludes this, since each member of its majority was
not beyond the leader's term when its probe was given out (`RoundOK.waiting`). A valid lease
excludes it by the promises of those that confirmed it (`Steady.lease`).

With these facts the methods keep the relation. A script that a node runs while it is not
leader only rejects (`Passive`).
-/

namespace RaftKV

open RaftM GhostLogic
open Consensus (lastTerm Decided IsQuorum)

namespace Setting

variable {S : Setting} {v : ℤ} {W : World} {Γ : Ghost} {c : Context}

theorem card_members (S : Setting) : S.members.card = S.peers.length :=
  List.toFinset_card_of_nodup S.nodup

/-! ## Which proposals a read index covers -/

/-- What succeeded in a later term was preceded by a majority of votes in it. -/
theorem Shared.later_quorum (h : S.Shared W) {j : ℕ} {u index term : ℤ} {command reply : Bytes}
    (he : W.trace[j]? = some (u, .proposal origin index command term true reply)) :
    ∃ q, IsQuorum S.members q ∧ ∀ w ∈ q, term ≤ W.hist.term w := by
  obtain ⟨hl, -⟩ := h.events j u _ he rfl
  obtain ⟨q, hq, hvotes⟩ := h.inv.leader_quorum hl
  exact ⟨q, hq, fun w hw => (h.inv.ballot_bound (hvotes w hw).1).2⟩

/-- The commit index of a leader that serves reads covers what has succeeded up to its term. -/
theorem Steady.covered (h : S.Steady v Γ c) (hr : c.node.role = .leader)
    (hserve : c.node.canServeRead = true) {j : ℕ} {u index term : ℤ} {command reply : Bytes}
    (he : c.trace[j]? = some (u, .proposal origin index command term true reply))
    (hle : term ≤ Γ.hist.term v) : index ≤ c.node.commitIndex := by
  obtain ⟨hlu, P, e, hidx, hdec, -⟩ := h.shared.events j u _ he rfl
  have hl := h.core.leader hr
  rcases hle.lt_or_eq with hlt | rfl
  · have hcommit := h.core.serve hr hserve
    rcases hdec with hnil | ⟨t, i, ht, hcom, hpre⟩
    · simp at hnil
    have hstart := h.shared.inv.leader_complete hcom (ht.trans_lt hlt)
      (Option.isSome_iff_exists.mpr ⟨v, hl⟩)
    have hlen := (hpre.trans hstart).length_le
    rw [List.length_append, List.length_singleton] at hlen
    have hlen' : P.length + 1 ≤ (Γ.hist.startLog (Γ.hist.term v)).length := hlen
    omega
  · obtain rfl : u = v := Option.some.inj (hlu.symm.trans hl)
    exact (h.loose.lead hr).acknowledged origin index command reply (List.mem_of_getElem? he)

/-- A round that a majority has acknowledged : its reads only wait for the state machine. -/
theorem RoundOK.waiting {inc : ℕ} {r : HeartbeatRound} (h : S.RoundOK W v inc r)
    (hq : S.peers.length / 2 + 1 ≤ r.acks.card) : ∀ q ∈ r.requests, S.WaitingOK W v q := by
  obtain ⟨floor, -, hreq, hacks, hfloor, -⟩ := h
  intro q hmem
  obtain ⟨hcall, hsafe⟩ := hreq q hmem
  refine ⟨false, hcall, fun hlin j hj u origin index command term reply he => ?_⟩
  rcases hsafe hlin j hj u origin index command term reply he with
    hle | ⟨hlt, quorum, hquorum, hterm⟩
  · exact hle
  obtain ⟨w, hw, hw'⟩ := hquorum.inter ⟨hacks, by rw [card_members]; exact hq⟩
  have := hterm w hw
  have := hfloor hlin w hw'
  omega

/-- The peers that have confirmed the lease, with the node itself. -/
theorem Steady.fresh_quorum (h : S.Steady v Γ c) {time : ℤ}
    (hq : c.node.quorumSize ≤ c.node.freshLease time) : ∃ q, IsQuorum S.members q ∧ ∀ w ∈ q, w = v ∨
      ∃ sentAt, c.node.leaseConfirmed w = some sentAt ∧ time - sentAt < leaseWindow := by
  -- Of the filter in `freshLease` only its length and what its members confirmed matter.
  obtain ⟨confirms, hlen, hconfirms⟩ : ∃ confirms : ℤ → Bool,
      c.node.freshLease time = 1 + (c.node.others.filter confirms).length ∧
      ∀ w, confirms w = true →
        ∃ sentAt, c.node.leaseConfirmed w = some sentAt ∧ time - sentAt < leaseWindow := by
    refine ⟨_, rfl, fun w hlease => ?_⟩
    cases hc : c.node.leaseConfirmed w with
    | none => simp [hc] at hlease
    | some sentAt => exact ⟨sentAt, rfl, by simpa [hc, leaseWindow] using hlease⟩
  set fresh := c.node.others.filter confirms
  have hmem : ∀ w ∈ fresh, w ∈ S.peers ∧ w ≠ v ∧
      ∃ sentAt, c.node.leaseConfirmed w = some sentAt ∧ time - sentAt < leaseWindow := by
    intro w hw
    obtain ⟨hother, hlease⟩ := List.mem_filter.mp hw
    obtain ⟨hpeer, hne⟩ := List.mem_filter.mp hother
    rw [h.core.peers] at hpeer
    rw [h.core.id] at hne
    exact ⟨hpeer, by simpa using hne, hconfirms w hlease⟩
  have hnodup : (v :: fresh).Nodup := by
    refine List.nodup_cons.mpr ⟨fun hv => (hmem v hv).2.1 rfl, ?_⟩
    refine (List.Nodup.filter _ ?_).filter _
    rw [h.core.peers]
    exact S.nodup
  refine ⟨(v :: fresh).toFinset, ⟨fun w hw => ?_, ?_⟩, fun w hw => ?_⟩
  · rcases List.mem_cons.mp (List.mem_toFinset.mp hw) with rfl | hw
    · exact h.member
    · exact List.mem_toFinset.mpr (hmem w hw).1
  · rw [List.toFinset_card_of_nodup hnodup, card_members, List.length_cons]
    rw [Node.quorumSize, h.core.peers, hlen] at hq
    omega
  · rcases List.mem_cons.mp (List.mem_toFinset.mp hw) with rfl | hw
    · exact .inl rfl
    · exact .inr (hmem w hw).2.2

/-- No later leader exists while the lease is valid. -/
theorem Steady.lease (h : S.Steady v Γ c) (hr : c.node.role = .leader) (hy : S.synced)
    (hq : c.node.quorumSize ≤ 1 ∨ c.node.quorumSize ≤ c.node.freshLease c.env.clock) :
    ¬Succeeded Γ.hist (Γ.hist.term v) := by
  intro hs
  have hlease := h.shared.lease hy
  have hl := h.core.leader hr
  rcases hlease.elected (Γ.hist.term v) hs with ⟨w, hw, hlt⟩ | ⟨q, hquorum, hfree⟩
  · obtain rfl : w = v := Option.some.inj (hw.symm.trans hl)
    exact lt_irrefl _ hlt
  -- the majority that let the later leader be elected meets the one that holds the lease
  obtain ⟨q', hquorum', hfresh⟩ : ∃ q', IsQuorum S.members q' ∧ ∀ w ∈ q', w = v ∨
      ∃ sentAt, c.node.leaseConfirmed w = some sentAt ∧
        c.env.clock - sentAt < leaseWindow := by
    rcases hq with hone | hq
    · refine ⟨{v}, ⟨Finset.singleton_subset_iff.mpr h.member, ?_⟩, fun w hw =>
        .inl (Finset.mem_singleton.mp hw)⟩
      rw [Node.quorumSize, h.core.peers] at hone
      rw [card_members, Finset.card_singleton]
      exact hone
    · exact h.fresh_quorum hq
  obtain ⟨w, hwq, hwq'⟩ := hquorum.inter hquorum'
  obtain ⟨hlt, hexpired⟩ := hfree w hwq
  rcases hfresh w hwq' with rfl | ⟨sentAt, hconf, hwin⟩
  · exact lt_irrefl _ hlt
  obtain ⟨heard, hmem, hle⟩ := (h.loose.lead hr).confirmed hy w sentAt hconf
  have := hexpired heard hmem
  have hclock : (c.world Γ).clock = c.env.clock := rfl
  omega

/-! ## Calls and callbacks -/

section Rules

variable {α : Type} {Q : α → Ghost → Context → Prop}

theorem gwp_invokeRead {call : ℕ} {ok : Bool} {readIndex : ℤ} {error : String}
    {next : RaftM Unit} {Q : Unit → Ghost → Context → Prop} (h : S.Ready v Γ c)
    (hok : ok = true → readIndex ≤ c.node.lastApplied ∧
      ∃ lease, c.trace[call]? = some (v, .readCalled lease) ∧
        (S.Trusted lease → ReadSafe c.trace call readIndex))
    (hnext : ∀ (trace : List (ℤ × Event)) (env : Env),
      S.Ready v Γ { c with trace := trace, env := env } →
      (S.logic v).gwp next Q Γ { c with trace := trace, env := env }) :
    (S.logic v).gwp (invokeRead call ok readIndex error next) Q Γ c := by
  rw [invokeRead]
  refine gwp_crashPoint h.toSafe fun env henv => ?_
  have hs := h.env henv.ge
  rw [gwp_getNode]
  refine gwp_observe hs.id (hnext _ _ (hs.note ?_ rfl))
  intro htrue
  obtain ⟨hle, lease, hcall, hsafe⟩ := hok htrue
  exact ⟨(List.getElem?_eq_some_iff.mp hcall).1, hle, lease,
    (World.Grows.observe (v := v) (W := c.world Γ) _).getElem?_trace hcall,
    fun ht => ReadSafe.mono (World.Grows.observe (v := v) (W := c.world Γ) _) hcall (hsafe ht)⟩

theorem gwp_rejectRead {error : String} {next : RaftM Unit}
    {Q : Bool → Ghost → Context → Prop} (h : S.Ready v Γ c)
    (hnext : ∀ (trace : List (ℤ × Event)) (env : Env),
      S.Ready v Γ { c with trace := trace, env := env } →
      (S.logic v).gwp next (fun _ => Q false) Γ { c with trace := trace, env := env }) :
    (S.logic v).gwp (rejectRead error next) Q Γ c := by
  rw [rejectRead]
  refine gwp_mark h.id (gwp_bind ?_)
  refine gwp_invokeRead (h.note (fun hf => by cases hf) rfl) (fun hf => by cases hf)
    fun trace env hr => ?_
  exact gwp_mono (hnext trace env hr) fun _ _ _ _ hq => gwp_pure hq

end Rules

/-! ## Scripts of a node that is not leader -/

/-- Only the trace, the network and the environment change. -/
structure Untouched (Γ : Ghost) (c : Context) (Γ' : Ghost) (c' : Context) : Prop where
  ghost : Γ' = Γ
  node : c'.node = c.node
  log : c'.log = c.log
  sm : c'.sm = c.sm
  exec : c'.exec = c.exec

theorem Untouched.refl (Γ : Ghost) (c : Context) : Untouched Γ c Γ c :=
  ⟨rfl, rfl, rfl, rfl, rfl⟩

theorem Untouched.trans {Γ Γ' Γ'' : Ghost} {c c' c'' : Context} (h : Untouched Γ c Γ' c')
    (h' : Untouched Γ' c' Γ'' c'') : Untouched Γ c Γ'' c'' :=
  ⟨h'.ghost.trans h.ghost, h'.node.trans h.node, h'.log.trans h.log, h'.sm.trans h.sm,
    h'.exec.trans h.exec⟩

theorem Untouched.stays {Γ Γ' : Ghost} {c c' : Context} (h : Untouched Γ c Γ' c') :
    Stays Γ c Γ' c' :=
  by rw [Stays, view, view, h.ghost, h.log, h.sm, h.exec, h.node]

variable (S v) in
/-- What runs on a node that is not leader and touches nothing. -/
def Passive {α : Type} (m : RaftM α) : Prop :=
  ∀ Γ c, S.Ready v Γ c → c.node.role ≠ .leader →
    (S.logic v).gwp m (fun _ Γ' c' => S.Ready v Γ' c' ∧ Untouched Γ c Γ' c') Γ c

theorem Passive.bind {α β : Type} {m : RaftM β} {f : β → RaftM α} (hm : S.Passive v m)
    (hf : ∀ b, S.Passive v (f b)) : S.Passive v (m >>= f) := fun Γ c hs hr =>
  gwp_seq (hm Γ c hs hr) fun b Γ' c' _ ⟨hs', hu⟩ =>
    gwp_mono (hf b Γ' c' hs' (hu.node ▸ hr)) fun _ _ _ _ ⟨hs'', hu'⟩ => ⟨hs'', hu.trans hu'⟩

theorem Passive.pure {α : Type} (a : α) : S.Passive v (pure a) :=
  fun Γ c hs _ => gwp_pure ⟨hs, Untouched.refl Γ c⟩

theorem Passive.forM {δ : Type} {f : δ → RaftM PUnit} {l : List δ}
    (hf : ∀ x ∈ l, S.Passive v (f x)) : S.Passive v (forM l f) := by
  induction l with
  | nil => exact Passive.pure ()
  | cons x l ih =>
    rw [List.forM_cons]
    exact (hf x List.mem_cons_self).bind fun _ => ih fun y hy => hf y (List.mem_cons_of_mem _ hy)

theorem requestReadIndexWith_passive {pp fr runOk runFail : RaftM Unit}
    (hfail : S.Passive v runFail) (onOk onFail : Script) :
    S.Passive v (requestReadIndexWith pp fr runOk runFail onOk onFail) := by
  intro Γ c h hr
  rw [requestReadIndexWith, gwp_getNode]
  have hl : c.node.isLeader = false := by simp [Node.isLeader, hr]
  simp only [hl, Bool.false_eq_true, not_false_eq_true, if_true]
  refine gwp_rejectRead h fun trace env hs => ?_
  exact gwp_mono (hfail Γ _ hs hr) fun _ _ _ _ hq =>
    ⟨hq.1, hq.2.ghost, hq.2.node, hq.2.log, hq.2.sm, hq.2.exec⟩

theorem runScriptWith_passive (pp fr : RaftM Unit) :
    ∀ script, S.Passive v (runScriptWith pp fr script)
  | .done => Passive.pure ()
  | .read onOk onFail rest =>
    (requestReadIndexWith_passive (runScriptWith_passive pp fr onFail) onOk onFail).bind
      fun _ => runScriptWith_passive pp fr rest

theorem invokeQueued_passive (request : ReadIndexRequest) (readIndex : ℤ) (error : String) :
    S.Passive v (invokeQueued request false readIndex error) := by
  intro Γ c h hr
  refine gwp_invokeRead h (fun hf => by cases hf) fun trace env hs => ?_
  exact gwp_mono (runScriptWith_passive _ _ _ Γ _ hs hr) fun _ _ _ _ hq =>
    ⟨hq.1, hq.2.ghost, hq.2.node, hq.2.log, hq.2.sm, hq.2.exec⟩

/-! ## Scripts of a leader -/

/-- What keeps the relation on a leader and touches nothing otherwise. -/
theorem KeepsLead.keeps {α : Type} {m : RaftM α} (hl : S.KeepsLead v m) (hp : S.Passive v m) :
    S.Keeps v m := by
  intro Γ c h
  by_cases hr : c.node.role = .leader
  · exact hl Γ c h hr
  · refine gwp_mono (hp Γ c h.toReady hr) fun _ Γ' c' _ ⟨hs, hu⟩ => ⟨{ hs with
      idle := fun _ => by rw [hu.node]; exact h.idle hr }, hu.stays⟩

theorem Steady.setReads (h : S.Steady v Γ c) (hr : c.node.role = .leader) {round : ℕ}
    {rounds : List HeartbeatRound} {completing : Bool} {unsent pending : List ReadIndexRequest}
    (hrounds : ∀ r ∈ rounds, S.RoundOK (c.world Γ) v c.incarnation r)
    (hunsent : ∀ q ∈ unsent, S.RequestOK (c.world Γ) v Γ.hist.term q)
    (hpending : ∀ q ∈ pending, S.WaitingOK (c.world Γ) v q) :
    S.Steady v Γ { c with node := { c.node with
      nextRoundId := round, heartbeatRounds := rounds, completingReads := completing,
      unsentReads := unsent, pendingReads := pending } } :=
  { h with
    loose := { h.loose with
      core := { h.loose.core with }
      lead := fun hr => { h.loose.lead hr with }
      reads := fun _ => ⟨hrounds, hunsent, hpending⟩
      promise := h.loose.promise }
    idle := fun hne => absurd hr hne }

theorem Steady.setCompleting (h : S.Steady v Γ c) (completing : Bool) :
    S.Steady v Γ { c with node := { c.node with completingReads := completing } } :=
  h.tweak ..

section

variable (h : S.Steady v Γ c) (hr : c.node.role = .leader)
include h hr

theorem Steady.requestOK (hserve : c.node.canServeRead = true) {call : ℕ}
    (hlast : c.trace[call]? = some (v, .readCalled false)) (onOk onFail : Script) (time : ℤ) :
    S.RequestOK (c.world Γ) v Γ.hist.term ⟨c.node.commitIndex, ⟨call, onOk, onFail⟩, time⟩ := by
  refine ⟨hlast, fun _ j _ u origin index command term reply he => ?_⟩
  by_cases hle : term ≤ Γ.hist.term v
  · exact .inl (h.covered hr hserve he hle)
  · exact .inr ⟨not_le.mp hle, h.shared.later_quorum he⟩

theorem Steady.readSafe
    (hserve : c.node.canServeRead = true) (hlease : ¬Succeeded Γ.hist (Γ.hist.term v))
    (call : ℕ) : ReadSafe c.trace call c.node.commitIndex := by
  intro j _ u origin index command term reply he
  refine h.covered hr hserve he (not_lt.mp fun hlt => hlease ⟨term, hlt, ?_⟩)
  exact Option.isSome_iff_exists.mpr ⟨u, (h.shared.events j u _ he rfl).1⟩

theorem gwp_readLeaseValid {α : Type} {Q : α → Ghost → Context → Prop} {k : Bool → RaftM α}
    (hfalse : ∀ env : Env, c.env.clock ≤ env.clock →
      (S.logic v).gwp (k false) Q Γ { c with env := env })
    (htrue : ∀ env : Env, c.env.clock ≤ env.clock → S.leased →
      (S.synced → ¬Succeeded Γ.hist (Γ.hist.term v)) →
      (S.logic v).gwp (k true) Q Γ { c with env := env }) :
    (S.logic v).gwp (readLeaseValid >>= k) Q Γ c := by
  refine gwp_bind ?_
  rw [readLeaseValid, gwp_getNode]
  refine gwp_ite (fun _ => gwp_pure (hfalse c.env le_rfl)) fun hoff => ?_
  push Not at hoff
  refine gwp_now fun env henv => ?_
  have hs := h.env henv
  refine gwp_ite (fun _ => gwp_pure (hfalse env henv)) fun hearly => ?_
  refine gwp_ite (fun hone =>
      gwp_pure (htrue env henv (h.core.lease hoff.1) fun hy => hs.lease hr hy (.inl hone)))
    fun hone => ?_
  by_cases hq : c.node.quorumSize ≤ c.node.freshLease env.clock
  · simp only [hq, decide_true]
    exact gwp_pure (htrue env henv (h.core.lease hoff.1) fun hy => hs.lease hr hy (.inr hq))
  · simp only [hq, decide_false]
    exact gwp_pure (hfalse env henv)

end

theorem leaseRead_spec {pp runOk : RaftM Unit} (hpp : S.Keeps v pp) (hok : S.Keeps v runOk)
    (onOk onFail : Script) (h : S.Steady v Γ c) (hr : c.node.role = .leader)
    (hserve : c.node.canServeRead = true) (hleased : S.leased)
    (hlease : S.synced → ¬Succeeded Γ.hist (Γ.hist.term v)) :
    (S.logic v).gwp (leaseRead pp runOk onOk onFail)
      (fun _ Γ' c' => S.Steady v Γ' c' ∧ Stays Γ c Γ' c') Γ c := by
  have hwait : S.WaitingOK ((c.world Γ).observe v (.readCalled true)) v
      ⟨c.node.commitIndex, ⟨c.trace.length, onOk, onFail⟩, 0⟩ := by
    refine ⟨true, by simp [World.observe, Context.world], fun hy => ?_⟩
    intro j hj u origin index command term reply he
    refine h.readSafe hr hserve (hlease hy) c.trace.length j hj u origin index command term reply ?_
    simpa [World.observe, Context.world, List.getElem?_append_left hj] using he
  rw [leaseRead]
  have h' := h.note (e := .readCalled true) (fun _ => hleased) rfl
  refine gwp_mark h.id ?_
  rw [gwp_getNode]
  refine gwp_now fun env henv => ?_
  have hs : S.Steady v Γ _ := Steady.env h' henv
  refine gwp_ite (fun hqueue => ?_) fun hqueue => ?_
  · refine gwp_modifyNode (gwp_pure ⟨hs.setReads hr (hs.loose.reads hr).rounds
      (hs.loose.reads hr).unsent fun q hq => ?_, rfl⟩)
    rcases List.mem_append.mp hq with hq | hq
    · exact (hs.loose.reads hr).pending q hq
    · rw [List.mem_singleton.mp hq]
      exact hwait
  push Not at hqueue
  refine gwp_modifyNode (gwp_bind ?_)
  refine gwp_invokeRead (hs.setCompleting true).toReady (fun _ => ⟨hqueue.1, hwait⟩)
    fun trace env' hs' => ?_
  have hs₁ : S.Steady v Γ _ := { hs' with idle := fun hne => absurd hr hne }
  refine gwp_mono (hok Γ _ hs₁) fun _ Γ₂ c₂ _ hp => gwp_modifyNode ?_
  refine hpp.seq (hp.1.setCompleting false) fun _ Γ₃ c₃ _ hs₃ hst₃ => gwp_pure ⟨hs₃, ?_⟩
  exact hp.2.trans hst₃

theorem roundRead_spec {fr : RaftM Unit} (hfr : S.Keeps v fr) (onOk onFail : Script)
    (h : S.Steady v Γ c) (hr : c.node.role = .leader) (hserve : c.node.canServeRead = true) :
    (S.logic v).gwp (roundRead fr onOk onFail)
      (fun _ Γ' c' => S.Steady v Γ' c' ∧ Stays Γ c Γ' c') Γ c := by
  rw [roundRead]
  have h' := h.note (e := .readCalled false) (fun hf => by cases hf) rfl
  refine gwp_mark h.id ?_
  rw [gwp_getNode]
  refine gwp_now fun env henv => gwp_modifyNode ?_
  have hs : S.Steady v Γ _ := Steady.env h' henv
  have hunsent : ∀ q ∈ c.node.unsentReads ++
      [⟨c.node.commitIndex, ⟨c.trace.length, onOk, onFail⟩, env.clock⟩],
      S.RequestOK (((c.world Γ).observe v (.readCalled false)).tick env.clock) v
        Γ.hist.term q := by
    intro q hq
    rcases List.mem_append.mp hq with hq | hq
    · exact (hs.loose.reads hr).unsent q hq
    · rw [List.mem_singleton.mp hq]
      exact hs.requestOK hr hserve (by simp) onOk onFail _
  refine gwp_ite (fun hcompleting => ?_) fun hcompleting => ?_
  · exact gwp_pure ⟨hs.setReads hr (hs.loose.reads hr).rounds hunsent
      (hs.loose.reads hr).pending, rfl⟩
  · exact hfr.seq (hs.setReads hr (hs.loose.reads hr).rounds hunsent (hs.loose.reads hr).pending)
      fun _ Γ₂ c₂ _ hs₂ hst₂ => gwp_pure ⟨hs₂, hst₂⟩

theorem requestReadIndexWith_keeps {pp fr runOk runFail : RaftM Unit} (hpp : S.Keeps v pp)
    (hfr : S.Keeps v fr) (hok : S.Keeps v runOk) (hfail : S.Keeps v runFail)
    (onOk onFail : Script) :
    S.KeepsLead v (requestReadIndexWith pp fr runOk runFail onOk onFail) := by
  intro Γ c h hr
  have reject : ∀ error, (S.logic v).gwp (rejectRead error runFail)
      (fun _ Γ' c' => S.Steady v Γ' c' ∧ Stays Γ c Γ' c') Γ c := fun error =>
    gwp_rejectRead h.toReady fun trace env hs => hfail Γ _ { hs with idle := h.idle }
  rw [requestReadIndexWith, gwp_getNode]
  refine gwp_ite (fun _ => reject _) fun h₁ => ?_
  refine gwp_ite (fun _ => reject _) fun h₂ => ?_
  refine gwp_ite (fun _ => reject _) fun h₃ => ?_
  have hserve : c.node.canServeRead = true := not_not.mp h₂
  refine gwp_readLeaseValid h hr (fun env henv => ?_) fun env henv hleased hlease => ?_
  · exact roundRead_spec hfr onOk onFail (h.env henv) hr hserve
  · exact leaseRead_spec hpp hok onOk onFail (h.env henv) hr hserve hleased hlease

theorem runScriptWith_keeps {pp fr : RaftM Unit} (hpp : S.Keeps v pp) (hfr : S.Keeps v fr) :
    ∀ script, S.Keeps v (runScriptWith pp fr script)
  | .done => Keeps.pure ()
  | .read onOk onFail rest => by
    rw [runScriptWith]
    exact ((requestReadIndexWith_keeps hpp hfr (runScriptWith_keeps hpp hfr onOk)
      (runScriptWith_keeps hpp hfr onFail) onOk onFail).keeps
      (requestReadIndexWith_passive (runScriptWith_passive pp fr onFail) onOk onFail)).bind
      fun _ => runScriptWith_keeps hpp hfr rest

theorem runNested_keeps (script : Script) : S.Keeps v (runNested script) :=
  runScriptWith_keeps (Keeps.pure ()) (Keeps.pure ()) script

end Setting

end RaftKV
