import RaftKV.Node.Facts
import RaftKV.Refinement.Votes

/-!
# Following a leader keeps the relation

A follower brings its log in line with a piece of the leader's log. The induction is over the
entries of the request, and its invariant is that the entries before the next one are a prefix
of both logs (`reconcile_spec`) : a committed entry is in the leader's log, so it is never
replaced, and an entry of the same term is the same entry. Every write is a step of the
protocol, and so is the acknowledgement that the reply carries.
-/

namespace RaftKV

open RaftM GhostLogic
open Consensus (lastTerm Decided IsQuorum)

namespace Setting

variable {S : Setting} {v peer : ℤ} {W : World} {Γ : Ghost} {c : Context} {L : List LogEntry}

/-! ## A follower and its leader -/

section

variable (h : S.Ready v Γ c) (hl : Γ.hist.leader (Γ.hist.term v) = some peer)
include h hl

theorem Ready.not_leader (hp : peer ≠ v) : c.node.role ≠ .leader := by
  intro hr
  have := h.core.leader hr
  rw [hl] at this
  exact hp (Option.some.inj this)

theorem Ready.committed_prefix {k : ℕ} (hk : c.node.commitIndex = k) :
    (Γ.hist.log v).take k <+: Γ.hist.leaderLog (Γ.hist.term v) := by
  obtain ⟨a, k', -, hk', -, -, -, hdec⟩ := h.core.progress
  obtain rfl : k' = k := by omega
  exact h.shared.inv.decided_prefix hdec le_rfl (Option.isSome_iff_exists.mpr ⟨peer, hl⟩)

/-- A log that keeps what is shared with the leader keeps what is committed. -/
theorem Ready.take_committed {l : List LogEntry}
    (hkeep : ∀ p, p <+: Γ.hist.log v → p <+: Γ.hist.leaderLog (Γ.hist.term v) → p <+: l) {k : ℕ}
    (hk : c.node.commitIndex = k) : l.take k = (Γ.hist.log v).take k := by
  obtain ⟨a, k', -, hk', -, hklen, -⟩ := h.core.progress
  have hpre := hkeep _ (List.take_prefix k _) (h.committed_prefix hl hk)
  have hlen : ((Γ.hist.log v).take k).length = k := by
    rw [List.length_take]
    omega
  rw [List.prefix_iff_eq_take.mp hpre, hlen]

end

theorem Steady.follow (h : S.Steady v Γ c) (hl : Γ.hist.leader (Γ.hist.term v) = some peer)
    (hp : peer ≠ v) {l : List LogEntry} {log : AbstractLog}
    (hfrom : l <+: Γ.hist.log v ∨ l <+: Γ.hist.leaderLog (Γ.hist.term v))
    (hkeep : ∀ p, p <+: Γ.hist.log v → p <+: Γ.hist.leaderLog (Γ.hist.term v) → p <+: l)
    (hset : S.Settled log c.sm l) (hhard : log.hardState = c.log.hardState)
    (hsnap : log.snapshot.index ≤ c.node.lastApplied) :
    S.Steady v (Γ.setHist (Γ.hist.setLog v l)) { c with log := log } ∧
      Consensus.Le v Γ.hist (Γ.hist.setLog v l) := by
  have hstep : Consensus.Step S.members S.Good v Γ.hist (Γ.hist.setLog v l) :=
    .follow hl hp hfrom hkeep
  have hle := (h.shared.inv.step hstep).2
  have hg : (c.world Γ).Grows v (c.world (Γ.setHist (Γ.hist.setLog v l))) :=
    World.Grows.setHist hle
  have hown : (Γ.hist.setLog v l).log v = l := Function.update_self ..
  have hr := h.toReady.not_leader hl hp
  obtain ⟨-, k, -, hk, -⟩ := h.core.progress
  have htake : ((Γ.hist.setLog v l).log v).take k = (Γ.hist.log v).take k := by
    rw [hown]
    exact h.toReady.take_committed hl hkeep hk
  rw [← hown] at hset
  refine ⟨?_, hle⟩
  exact
    { member := h.member
      id := h.id
      shared := h.shared.setHist_of_eq h.member hstep rfl rfl
      disk := h.disk.setLog hle h.shared.inv rfl rfl htake (hk ▸ h.core.store_le.2) hhard
        (.inl hset)
      progress := h.progress
      fresh := h.fresh
      loose :=
        { core := h.core.setLog hle h.shared.inv rfl rfl hk htake hset hsnap
            fun _ => Option.isSome_iff_exists.mpr ⟨peer, hl⟩
          rpc := h.loose.rpc
          lead := fun hr' => absurd hr' hr
          proposals := fun hr' => absurd hr' hr
          reads := fun hr' => absurd hr' hr
          promise := fun hy hrun => (h.loose.promise hy hrun).mono hg fun _ _ he => he }
      idle := h.idle }

theorem Steady.acknowledge (h : S.Steady v Γ c) (hl : Γ.hist.leader (Γ.hist.term v) = some peer)
    {i : ℕ} (hi : i ≤ (Γ.hist.log v).length)
    (hlog : (Γ.hist.log v).take i <+: Γ.hist.leaderLog (Γ.hist.term v)) :
    S.Steady v (Γ.setHist (Γ.hist.setAck v (Γ.hist.term v) i)) c ∧
      Extends v Γ c (Γ.setHist (Γ.hist.setAck v (Γ.hist.term v) i)) c := by
  have hstep : Consensus.Step S.members S.Good v Γ.hist (Γ.hist.setAck v (Γ.hist.term v) i) :=
    .acknowledge hl hi hlog
  have hg : (c.world Γ).Grows v ((c.world Γ).setHist (Γ.hist.setAck v (Γ.hist.term v) i)) :=
    World.Grows.setHist (h.shared.inv.step hstep).2
  have hf : (c.world Γ).Frames v c.node.commitIndex
      ((c.world Γ).setHist (Γ.hist.setAck v (Γ.hist.term v) i)) :=
    { World.Frames.refl v c.node.commitIndex (c.world Γ) with }
  exact ⟨{ member := h.member
           id := h.id
           shared := h.shared.setHist_of_eq h.member hstep rfl rfl
           disk := DiskOK.mono hg hf h.shared.inv h.disk
           progress := h.progress
           fresh := h.fresh
           loose := h.loose.mono hg hf h.shared.inv rfl
           idle := h.idle }, hg, rfl, rfl⟩

/-! ## The log is brought in line -/

/-- What bringing the log in line leaves alone. -/
structure Aligned (c c' : Context) : Prop where
  node : c'.node = c.node
  clock : c'.env.clock = c.env.clock

theorem Aligned.refl (c : Context) : Aligned c c :=
  ⟨rfl, rfl⟩

theorem Aligned.trans {c₁ c₂ c₃ : Context} (h : Aligned c₁ c₂) (h' : Aligned c₂ c₃) :
    Aligned c₁ c₃ :=
  ⟨h'.node.trans h.node, h'.clock.trans h.clock⟩

/-- A node that keeps its process keeps its term. -/
theorem Aligned.term {Γ' : Ghost} {c' : Context} (ha : Aligned c c') (h : S.Ready v Γ c)
    (h' : S.Ready v Γ' c') : Γ'.hist.term v = Γ.hist.term v := by
  rw [← h'.core.term, ha.node, h.core.term]

variable {t : ℤ} {P es : List LogEntry} {e : LogEntry} {m : AppendEntries}

/-- The leader of the term and its log are the same after steps of another. -/
theorem Extends.leader {Γ' : Ghost} {c' : Context} (he : Extends v Γ c Γ' c')
    (hl : Γ.hist.leader t = some peer) (hp : peer ≠ v) :
    Γ'.hist.leader t = some peer ∧ Γ'.hist.leaderLog t = Γ.hist.leaderLog t :=
  ⟨(he.grows.hist.leader hl).1, he.grows.hist.other_leaderLog hl hp⟩

theorem Shared.next_entry (h : S.Shared W) (hl : W.hist.leader t = some peer)
    {e : LogEntry} (hpre : P ++ e :: es <+: W.hist.leaderLog t) :
    e.index = P.length + 1 ∧ 0 < e.term := by
  have hm := (h.inv.leader_matched hl).initial hpre
  have hi : P.length < (P ++ e :: es).length := by simp
  have hgood := h.inv.good hm hi
  have hpos := h.inv.term_pos hm (List.getElem_mem hi)
  have hget : (P ++ e :: es)[P.length] = e := by simp
  rw [hget] at hgood hpos
  exact ⟨hgood.1, hpos⟩

/-- An entry of the term that the leader has at its place is the entry of the leader. -/
theorem Shared.same_entry (h : S.Shared W) (hl : W.hist.leader t = some peer)
    {e : LogEntry} (hpre : P ++ e :: es <+: W.hist.leaderLog t)
    (hlt : P.length < (W.hist.log v).length)
    (hterm : ((W.hist.log v)[P.length]).term = e.term) : P ++ [e] <+: W.hist.log v := by
  have hm := (h.inv.leader_matched hl).initial hpre
  have hi : P.length < (P ++ e :: es).length := by simp
  have heq := h.inv.take_eq_of_term_eq (h.inv.log_matched v) hm hlt hi (by simpa using hterm)
  have htake : (P ++ e :: es).take (P.length + 1) = P ++ [e] := by
    rw [List.take_append]
    simp
  rw [← htake, ← heq]
  exact List.take_prefix _ _

theorem Ready.committed_entry (h : S.Ready v Γ c) (hl : Γ.hist.leader (Γ.hist.term v) = some peer)
    (hpre : P ++ e :: es <+: Γ.hist.leaderLog (Γ.hist.term v))
    (hle : (P.length : ℤ) < c.node.commitIndex) : P ++ [e] <+: Γ.hist.log v := by
  obtain ⟨a, k, -, hk, -, hklen, -⟩ := h.core.progress
  have hpre' : (P ++ [e]) ++ es <+: Γ.hist.leaderLog (Γ.hist.term v) := by simpa using hpre
  have hcommitted := h.committed_prefix hl hk
  refine (List.prefix_of_prefix_length_le (List.IsPrefix.trans ⟨es, rfl⟩ hpre') hcommitted
    ?_).trans (List.take_prefix _ _)
  simp only [List.length_append, List.length_cons, List.length_nil, List.length_take]
  omega

theorem Steady.cut (h : S.Steady v Γ c) (hl : Γ.hist.leader (Γ.hist.term v) = some peer)
    (hp : peer ≠ v)
    (hpre : P ++ e :: es <+: Γ.hist.leaderLog (Γ.hist.term v)) (hlog : P <+: Γ.hist.log v)
    (hnot : ¬P ++ [e] <+: Γ.hist.log v) :
    ∃ log, c.log.truncateSuffix (P.length + 1) = .ok log ∧ LogRep log P ∧
      S.Steady v (Γ.setHist (Γ.hist.setLog v P)) { c with log := log } ∧
      Consensus.Le v Γ.hist (Γ.hist.setLog v P) := by
  obtain ⟨a, k, ha, hk, hak, -, hsa, -⟩ := h.core.progress
  have hfree : ¬(P.length : ℤ) < c.node.commitIndex := fun hlt =>
    hnot (h.toReady.committed_entry hl hpre hlt)
  have hcut : (Γ.hist.log v).take P.length = P := (List.prefix_iff_eq_take.mp hlog).symm
  have hset := h.core.settled
  obtain ⟨log, hwrite, hrep, hs, hhard, hintent⟩ := hset.rep.truncate P.length (by omega)
  rw [hcut] at hrep
  have hset' : S.Settled log c.sm P := by
    refine ⟨hintent.trans hset.intent, hrep, hs ▸ hset.applied, ?_⟩
    rw [hs]
    refine ⟨hset.data.1, fun hy hpos => ?_⟩
    rw [hset.data.2 hy hpos, ← hcut, List.take_take, min_eq_left (by omega)]
  have hpre' : P ++ [e] <+: Γ.hist.leaderLog (Γ.hist.term v) :=
    List.IsPrefix.trans ⟨es, by simp⟩ hpre
  -- a longer prefix of both logs has the entry of the leader
  have hkeep : ∀ p, p <+: Γ.hist.log v → p <+: Γ.hist.leaderLog (Γ.hist.term v) → p <+: P := by
    intro p hpl hpleader
    refine List.prefix_of_prefix_length_le hpl hlog ?_
    by_contra hlong
    refine hnot ((List.prefix_of_prefix_length_le hpre' hpleader ?_).trans hpl)
    simp only [List.length_append, List.length_cons, List.length_nil]
    omega
  obtain ⟨h₁, hle⟩ := h.follow hl hp (.inl hlog) hkeep hset' hhard (by rw [hs, ha]; exact hsa)
  exact ⟨log, hwrite, hrep, h₁, hle⟩

theorem reconcile_missing (h : S.Shared W)
    (hl : W.hist.leader t = some peer) (hpre : P ++ es <+: W.hist.leaderLog t)
    (hrep : LogRep c.log L) (hlen : L.length ≤ P.length) : reconcile es c = .ok es c := by
  have hm := (h.inv.leader_matched hl).initial hpre
  refine reconcile_after fun e he => ?_
  obtain ⟨i, hi, rfl⟩ := List.getElem_of_mem he
  have hi' : P.length + i < (P ++ es).length := by simpa using hi
  have hidx := (h.inv.good hm hi').1
  rw [List.getElem_append_right (by omega)] at hidx
  simp only [Nat.add_sub_cancel_left] at hidx
  have hlast := hrep.lastIndex_eq
  exact ⟨by omega, AbstractLog.getTerm_after hrep.base_le.1 (by omega)⟩

theorem reconcile_spec (hp : peer ≠ v) : ∀ (es : List LogEntry) {P : List LogEntry} {Γ : Ghost}
    {c : Context}, S.Steady v Γ c → Γ.hist.leader (Γ.hist.term v) = some peer →
    P ++ es <+: Γ.hist.leaderLog (Γ.hist.term v) → P <+: Γ.hist.log v →
    (S.logic v).gwp (reconcile es) (fun missing Γ' c' => S.Steady v Γ' c' ∧ Aligned c c' ∧
      (missing = [] ∧ P ++ es <+: Γ'.hist.log v ∨ Γ'.hist.log v ++ missing = P ++ es)) Γ c := by
  intro es
  induction es with
  | nil =>
    intro P Γ c h _ _ hlog
    exact gwp_pure ⟨h, Aligned.refl c, .inl ⟨rfl, by simpa using hlog⟩⟩
  | cons e es ih =>
    intro P Γ c h hl hpre hlog
    have hrep := h.core.settled.rep
    obtain ⟨hidx, hpos⟩ := h.shared.next_entry hl hpre
    have hi : e.index = ((P.length + 1 : ℕ) : ℤ) := by rw [hidx]; rfl
    have hnext : (P ++ [e]) ++ es <+: Γ.hist.leaderLog (Γ.hist.term v) := by simpa using hpre
    rw [reconcile, gwp_getLog, gwp_getNode]
    refine gwp_ite (fun hconf => ?_) fun hconf => ?_
    · obtain ⟨hfound, hdiff⟩ := hconf
      rw [hi] at hfound hdiff
      obtain ⟨hlen, hterm⟩ := hrep.of_getTerm hfound
      rw [hterm, lastTerm_take_succ hlen] at hdiff
      have hnot : ¬P ++ [e] <+: Γ.hist.log v := by
        intro hsame
        have := hsame.getElem (i := P.length) (by simp)
        rw [← this] at hdiff
        simp at hdiff
      rw [if_neg fun hle => hnot (h.toReady.committed_entry hl hpre (by omega)), hidx]
      obtain ⟨log, hwrite, hrep', h₁, hle⟩ := h.cut hl hp hpre hlog hnot
      refine gwp_writeLog_step h.toSafe hwrite hle fun env henv => ?_
      have hmiss : reconcile es { c with log := log, env := env } = .ok es _ :=
        reconcile_missing h.shared hl hnext hrep' (by simp)
      refine gwp_bind (gwp_of_run hmiss (gwp_pure ⟨h₁.env henv.ge, ⟨rfl, henv⟩, .inr ?_⟩))
      have hown : (Γ.hist.setLog v P).log v = P := Function.update_self ..
      change (Γ.hist.setLog v P).log v ++ e :: es = _
      rw [hown]
    refine gwp_ite (fun hend => ?_) fun hend => ?_
    · rw [hrep.lastIndex_eq] at hend
      have hsame : P = Γ.hist.log v := hlog.eq_of_length_le (by omega)
      have hmiss : reconcile es c = .ok es c :=
        reconcile_missing h.shared hl hnext hrep (by rw [← hsame]; simp)
      exact gwp_bind (gwp_of_run hmiss (gwp_pure ⟨h, Aligned.refl c, .inr (by rw [← hsame])⟩))
    rw [hrep.lastIndex_eq] at hend
    have hlt : P.length < (Γ.hist.log v).length := by omega
    have hsame : P ++ [e] <+: Γ.hist.log v := by
      by_cases hbase : c.log.snapshot.index ≤ e.index
      · rw [hi, hrep.getTerm_eq (by omega) (by omega), lastTerm_take_succ hlt] at hconf
        refine h.shared.same_entry hl hpre hlt ?_
        by_contra hne
        have hterm : 0 < ((Γ.hist.log v)[P.length]).term :=
          h.shared.inv.term_pos (h.shared.inv.log_matched v) (List.getElem_mem hlt)
        exact hconf ⟨by omega, hne⟩
      · obtain ⟨a, k, ha, hk, hak, -, hsa, -⟩ := h.core.progress
        exact h.toReady.committed_entry hl hpre (by omega)
    refine gwp_mono (ih h hl hnext hsame) fun missing Γ' c' _ hq => ?_
    simpa using hq

/-- What is missing continues the log up to the end of the request. -/
theorem appendMissing_spec (h : S.Steady v Γ c) (hp : peer ≠ v)
    (hl : Γ.hist.leader (Γ.hist.term v) = some peer) {missing : List LogEntry}
    (hpre : P <+: Γ.hist.leaderLog (Γ.hist.term v))
    (hmiss : missing = [] ∧ P <+: Γ.hist.log v ∨ Γ.hist.log v ++ missing = P) :
    (S.logic v).gwp (appendMissing missing) (fun _ Γ' c' => S.Steady v Γ' c' ∧ Aligned c c' ∧
      P <+: Γ'.hist.log v) Γ c := by
  rw [appendMissing]
  by_cases hnil : missing = []
  · rw [if_pos (by rw [hnil]; rfl)]
    refine gwp_pure ⟨h, Aligned.refl c, ?_⟩
    rcases hmiss with hm | hm
    · exact hm.2
    · rw [← hm, hnil, List.append_nil]
  rw [if_neg (by simpa using hnil)]
  have hm : Γ.hist.log v ++ missing = P := hmiss.resolve_left fun hm => hnil hm.1
  subst hm
  have hmatched := (h.shared.inv.leader_matched hl).initial hpre
  have hgood : ∀ i (hi : i < missing.length), S.Good ((Γ.hist.log v).length + i) missing[i] ∧
      0 < missing[i].term := by
    intro i hi
    have hi' : (Γ.hist.log v).length + i < (Γ.hist.log v ++ missing).length := by simpa using hi
    have hget : (Γ.hist.log v ++ missing)[(Γ.hist.log v).length + i] = missing[i] := by
      rw [List.getElem_append_right (by omega)]
      simp
    rw [← hget]
    exact ⟨h.shared.inv.good hmatched hi', h.shared.inv.term_pos hmatched (List.getElem_mem hi')⟩
  have hpos := List.length_pos_iff.mpr hnil
  have hwrite := h.core.settled.rep.appendBatch_eq missing
    (fun i hi => ⟨by have := (hgood i hi).1.1; push_cast at this; omega, (hgood i hi).2⟩) (by
      have hlast := (hgood (missing.length - 1) (by omega)).1
      have h₁ := hlast.1
      have h₂ := hlast.2.1
      omega)
  obtain ⟨a, k, ha, -, -, -, hsa, -⟩ := h.core.progress
  obtain ⟨h₁, hle⟩ := h.follow hl hp (.inr hpre)
    (fun p hpl _ => hpl.trans (List.prefix_append _ _)) (h.core.settled.append missing) rfl
    (by rw [ha]; exact hsa)
  rw [← bind_pure (onFailure _ _)]
  refine gwp_onFailure_writeLog h.toSafe hwrite hle (fun env henv =>
    gwp_pure ⟨h₁.env henv.ge, ⟨rfl, henv⟩, ?_⟩)
    fun env henv => gwp_modifyNode_last { h.toSafe.env henv.ge with }
  have hown : (Γ.hist.setLog v (Γ.hist.log v ++ missing)).log v = Γ.hist.log v ++ missing :=
    Function.update_self ..
  change _ <+: (Γ.hist.setLog v (Γ.hist.log v ++ missing)).log v
  rw [hown]

/-! ## Replies -/

theorem replyAppend_spec (h : S.Steady v Γ c) (hp : peer ∈ S.members) (hne : peer ≠ v)
    {rpcId : ℕ} (hid : rpcId ≤ Γ.alloc peer c.replyTo) {success : Bool} {last : ℤ}
    (hs : success = true → (∃ k : ℕ, last = k ∧ k ≤ Γ.hist.ack v (Γ.hist.term v)) ∧
      (S.synced → Heard c.net c.trace v peer (Γ.hist.term v) rpcId)) :
    (S.logic v).gwp (replyAppend peer rpcId success last) (fun _ Γ' c' => S.Steady v Γ' c')
      Γ c := by
  rw [replyAppend, gwp_getNode, h.core.term]
  refine gwp_mono (h.reply ?_ rfl hp hne) fun _ _ _ _ hq => hq.1
  exact ⟨trivial, le_rfl, hid, h.shared.floor_le peer c.replyTo rpcId v, hs⟩

/-! ## Requests that fit -/

theorem Steady.setLeader (h : S.Steady v Γ c) (hp : peer ∈ S.members)
    (hl : Γ.hist.leader (Γ.hist.term v) = some peer) :
    S.Steady v Γ { c with node := { c.node with leaderId := peer } } :=
  { h with
    loose := { h.loose with
      core := { h.loose.core with }
      lead := fun hr => { h.loose.lead hr with }
      reads := fun hr => { h.loose.reads hr with }
      promise := fun hy hrun term time he => by
        rcases h.loose.promise hy hrun term time he with h₁ | h₁ | h₁ | ⟨h₁, h₂, -, -, h₅⟩
        · exact .inl h₁
        · exact .inr (.inl h₁)
        · exact .inr (.inr (.inl h₁))
        have hnn := member_nonneg hp
        refine .inr (.inr (.inr ⟨h₁, h₂, by simp only; omega, ?_, h₅⟩))
        rw [← h₂, h.core.term]
        exact hl }
    idle := fun hr => { h.idle hr with } }

theorem Steady.accept (h : S.Steady v Γ c) (hr : c.node.role = .follower)
    (hl : Γ.hist.leader (Γ.hist.term v) = some c.node.leaderId) (hid : c.node.leaderId ≠ -1)
    (hd : c.env.clock + leaseWindow ≤ c.node.electionDeadline) :
    S.Steady v Γ { c with
      trace := c.trace ++ [(v, .accepted (Γ.hist.term v) c.env.clock)] } := by
  have hr' : c.node.role ≠ .leader := by rw [hr]; decide
  have hsafe := h.toSafe.observe (e := .accepted (Γ.hist.term v) c.env.clock) trivial
    (fun term time heq => by cases heq; exact ⟨rfl, le_rfl⟩) rfl
  refine { hsafe with
    loose :=
      { core := h.core
        rpc := h.loose.rpc
        lead := fun hl => absurd hl hr'
        proposals := fun hl => absurd hl hr'
        reads := fun hl => absurd hl hr'
        promise := fun hy hrun term time he => ?_ }
    idle := h.idle }
  rcases List.mem_append.mp he with he | he
  · exact h.loose.promise hy hrun term time he
  · obtain ⟨-, heq⟩ := Prod.mk.inj (List.mem_singleton.mp he)
    cases heq
    exact .inr (.inr (.inr ⟨hr, h.core.term, hid, hl, hd⟩))

/-- A prefix of the leader's log that a majority has is committed as far as it is known. -/
theorem Steady.commitTo (h : S.Steady v Γ c) {p : List LogEntry} {commit : ℤ}
    (hP : P <+: Γ.hist.log v) (hPl : P <+: Γ.hist.leaderLog (Γ.hist.term v))
    (hp : p <+: Γ.hist.leaderLog (Γ.hist.term v))
    (hdec : Decided S.members Γ.hist (Γ.hist.term v) p) (hcommit : (p.length : ℤ) = commit) :
    S.Steady v Γ { c with node := { c.node with
      commitIndex := max c.node.commitIndex (min commit P.length) } } := by
  obtain ⟨a, k, -, hk, -, hklen, -, hkdec⟩ := h.core.progress
  have hlen := hP.length_le
  rcases le_total k (min p.length P.length) with hle | hle
  · have heq : max c.node.commitIndex (min commit (P.length : ℤ)) =
        (min p.length P.length : ℕ) := by omega
    rw [heq]
    refine h.setCommit (by omega) (by omega) (hdec.initial ?_)
    have htake : (Γ.hist.log v).take (min p.length P.length) =
        P.take (min p.length P.length) := by
      obtain ⟨r, hr⟩ := hP
      rw [← hr, List.take_append_of_le_length (by omega)]
    rw [htake]
    refine List.prefix_of_prefix_length_le ((List.take_prefix _ _).trans hPl) hp ?_
    simp only [List.length_take]
    omega
  · have heq : max c.node.commitIndex (min commit (P.length : ℤ)) = (k : ℕ) := by omega
    rw [heq]
    exact h.setCommit (by omega) hklen hkdec

/-- The request being handled. -/
structure Handling (v peer : ℤ) (message : Message) (c : Context) : Prop where
  sent : ∃ e ∈ c.net, e.src = peer ∧ e.dst = v ∧ e.incarnation = c.replyTo ∧ e.message = message

theorem Handling.mono {m : Message} {Γ' : Ghost} {c' : Context} (h : Handling v peer m c)
    (he : Extends v Γ c Γ' c') : Handling v peer m c' := by
  obtain ⟨e, hmem, h₁, h₂, h₃, h₄⟩ := h.sent
  exact ⟨e, he.grows.mem_net hmem, h₁, h₂, h₃.trans he.replyTo.symm, h₄⟩

/-- What the request tells. -/
theorem Handling.append (h : Handling v peer (.appendEntries m) c) (hsh : S.Shared (c.world Γ)) :
    S.EntriesOK Γ.hist peer m ∧ m.rpcId ≤ Γ.alloc peer c.replyTo := by
  obtain ⟨e, hmem, rfl, -, hinc, hm⟩ := h.sent
  have := (hsh.msgs e hmem).2
  rw [hm] at this
  exact ⟨this.1, hinc ▸ this.2⟩

/-- A log with the term of the leader at an index is the leader's up to there. -/
theorem Shared.prefix_of_lastTerm (h : S.Shared W) (hl : W.hist.leader t = some peer)
    (hP : P <+: W.hist.leaderLog t) (hle : P.length ≤ (W.hist.log v).length)
    (hterm : lastTerm ((W.hist.log v).take P.length) = lastTerm P) : P <+: W.hist.log v := by
  rcases Nat.eq_zero_or_pos P.length with h0 | hpos
  · rw [List.length_eq_zero_iff.mp h0]
    exact List.nil_prefix
  obtain ⟨i, hi⟩ : ∃ i, P.length = i + 1 := ⟨P.length - 1, by omega⟩
  have hi₁ : i < (W.hist.log v).length := by omega
  have hi₂ : i < P.length := by omega
  have hterm' : (W.hist.log v)[i].term = P[i].term := by
    rw [← lastTerm_take_succ hi₁, ← lastTerm_take_succ hi₂, ← hi, List.take_length]
    exact hterm
  have heq := h.inv.take_eq_of_term_eq (h.inv.log_matched v)
    ((h.inv.leader_matched hl).initial hP) hi₁ hi₂ hterm'
  rw [← hi, List.take_length] at heq
  rw [← heq]
  exact List.take_prefix _ _

theorem Ready.prefix_of_getTerm (h : S.Ready v Γ c) (hl : Γ.hist.leader t = some peer)
    (hP : P <+: Γ.hist.leaderLog t)
    (hfit : c.log.getTerm P.length = lastTerm P) (hnn : 0 ≤ lastTerm P) : P <+: Γ.hist.log v := by
  obtain ⟨hle, hterm⟩ := h.core.settled.rep.of_getTerm (i := P.length) (by omega)
  exact h.shared.prefix_of_lastTerm hl hP hle (hterm.symm.trans hfit)

section

variable (h : S.Steady v Γ c) (hp : peer ∈ S.members) (hne : peer ≠ v)
  (hm : Handling v peer (.appendEntries m) c) (hterm : Γ.hist.term v = m.term)
  (hr : c.node.role = .follower)
include h hp hne hm hterm hr

/-- The end of an accepted request, when the log is in line with it. -/
theorem confirmEntries_spec
    (hid : c.node.leaderId = peer) (hd : c.env.clock + leaseWindow ≤ c.node.electionDeadline)
    (hP : P <+: Γ.hist.log v)
    (hPl : P <+: Γ.hist.leaderLog (Γ.hist.term v))
    (hlen : (P.length : ℤ) = m.prevLogIndex + m.entries.length) :
    (S.logic v).gwp
      (do
        observe (.accepted m.term (← get).env.clock)
        modifyNode fun n => { n with
          commitIndex := max n.commitIndex
            (min m.leaderCommit (m.prevLogIndex + m.entries.length)) }
        applyCommitted
        replyAppend peer m.rpcId true (m.prevLogIndex + m.entries.length))
      (fun _ Γ' c' => S.Steady v Γ' c') Γ c := by
  obtain ⟨⟨hl, -, p, hplen, hp', hdec⟩, hrpc⟩ := hm.append h.shared
  rw [← hterm] at hl hp' hdec ⊢
  -- the acknowledgement that the reply carries
  have htake := List.prefix_iff_eq_take.mp hP
  obtain ⟨h₁, hext₁⟩ := h.acknowledge hl hP.length_le (by rw [← htake]; exact hPl)
  refine gwp_ghost _ hext₁ ?_
  rw [gwp_get_bind]
  refine gwp_observe h₁.id ?_
  have hnn := member_nonneg hp
  have h₂ := h₁.accept hr (by rw [hid]; exact hl) (by omega) hd
  rw [← hlen]
  have hdec₁ := hdec.step hext₁.grows.hist h.shared.inv
  refine gwp_modifyNode ?_
  have h₃ := h₂.commitTo hP hPl hp' hdec₁ hplen
  refine gwp_seq (applyCommitted_spec h₃) fun _ Γ₄ c₄ hext₄ ⟨h₄, hadv⟩ => ?_
  have hack : P.length ≤ Γ₄.hist.ack v (Γ₄.hist.term v) := by
    rw [hadv.hist]
    simp [Ghost.setHist, Consensus.State.setAck]
  refine replyAppend_spec h₄ hp hne ?_ fun _ => ⟨⟨P.length, rfl, hack⟩, fun hy => ?_⟩
  · rw [hext₄.replyTo]
    exact hrpc.trans (hext₄.grows.alloc_le peer c.replyTo)
  obtain ⟨e, hmem, hsrc, -, -, hmsg⟩ := hm.sent
  have hsent : e.sentAt ≤ c.env.clock := (h.shared.lease hy).sent_le e hmem
  refine ⟨c.env.clock, ?_, e, hext₄.grows.mem_net hmem, hsrc, hsent, m, hmsg, ?_, rfl⟩
  · rw [hadv.hist]
    exact hext₄.grows.mem_trace (List.mem_append_right _ List.mem_cons_self)
  · rw [hadv.hist]
    exact hterm.symm

theorem acceptEntries_spec
    (hid : c.node.leaderId = peer) (hd : c.env.clock + leaseWindow ≤ c.node.electionDeadline)
    (hfit : c.log.getTerm m.prevLogIndex = m.prevLogTerm) (hprev : 0 ≤ m.prevLogTerm) :
    (S.logic v).gwp (acceptEntries peer m) (fun _ Γ' c' => S.Steady v Γ' c') Γ c := by
  obtain ⟨⟨hl, ⟨pre, hlen, hlast, hpre⟩, -⟩, -⟩ := hm.append h.shared
  rw [← hterm] at hl hpre
  have hlog : pre <+: Γ.hist.log v :=
    h.toReady.prefix_of_getTerm hl ((List.prefix_append _ _).trans hpre)
      (by rw [hlen, hlast]; exact hfit) (by rw [hlast]; exact hprev)
  rw [acceptEntries]
  refine gwp_seq (reconcile_spec hne m.entries h hl hpre hlog)
    fun missing Γ₁ c₁ hext₁ ⟨h₁, ha₁, hmiss⟩ => ?_
  obtain ⟨hl₁, hlead₁⟩ := hext₁.leader hl hne
  have ht₁ := ha₁.term h.toReady h₁.toReady
  rw [← ht₁] at hl₁ hlead₁
  have hpre₁ : pre ++ m.entries <+: Γ₁.hist.leaderLog (Γ₁.hist.term v) := by
    rw [hlead₁, ht₁]
    exact hpre
  refine gwp_seq (appendMissing_spec h₁ hne hl₁ hpre₁ hmiss)
    fun _ Γ₂ c₂ hext₂ ⟨h₂, ha₂, hlog₂⟩ => ?_
  have ha := ha₁.trans ha₂
  have ht₂ := ha₂.term h₁.toReady h₂.toReady
  refine confirmEntries_spec h₂ hp hne ((hm.mono hext₁).mono hext₂) (ht₂.trans (ht₁.trans hterm))
    (by rw [ha.node]; exact hr) (by rw [ha.node]; exact hid)
    (by rw [ha.clock, ha.node]; exact hd) hlog₂ ?_ ?_
  · rw [ht₂, (hext₂.leader hl₁ hne).2]
    exact hpre₁
  · rw [List.length_append, ← hlen]
    push_cast
    rfl

theorem followLeader_spec (hprev : 0 ≤ m.prevLogTerm) :
    (S.logic v).gwp (followLeader peer m) (fun _ Γ' c' => S.Steady v Γ' c') Γ c := by
  obtain ⟨⟨hl, -⟩, hrpc⟩ := hm.append h.shared
  rw [← hterm] at hl
  rw [followLeader]
  refine gwp_modifyNode (gwp_resetElectionTimer fun env deadline henv hd => ?_)
  have h₁ := ((h.setLeader hp hl).env henv).setDeadline hd
  rw [gwp_getLog]
  split_ifs with hfit
  · exact acceptEntries_spec h₁ hp hne { hm with } hterm hr rfl hd hfit hprev
  · exact replyAppend_spec h₁ hp hne hrpc fun hs => by cases hs

end

theorem Ready.freed_of_later (h : S.Ready v Γ c) (hrun : c.node.running = true) (hy : S.synced)
    (hl : Γ.hist.leader t = some peer) (hlt : c.node.currentTerm < t) : Freed (c.world Γ) v :=
  (h.loose.promise hy hrun).freed_of_succeeded ⟨t, hlt, Option.isSome_iff_exists.mpr ⟨peer, hl⟩⟩

theorem handleAppendEntries_spec (h : S.Steady v Γ c) (hm : Handling v peer (.appendEntries m) c) :
    (S.logic v).gwp (handleAppendEntries peer m) (fun _ Γ' c' => S.Steady v Γ' c') Γ c := by
  obtain ⟨⟨hl, -⟩, hrpc⟩ := hm.append h.shared
  rw [handleAppendEntries, gwp_getNode, gwp_getLog]
  refine gwp_unless (fun _ => gwp_pure h) fun hvalid => ?_
  simp only [AppendEntries.valid, Bool.and_eq_true, decide_eq_true_eq] at hvalid
  obtain ⟨⟨⟨⟨⟨⟨⟨⟨⟨⟨⟨hrun, hremote⟩, -⟩, -⟩, -⟩, -⟩, hprev⟩, -⟩, -⟩, -⟩, -⟩, -⟩ := hvalid
  obtain ⟨hp, hne⟩ := mem_of_isRemotePeer h hremote
  refine gwp_ite (fun _ => replyAppend_spec h hp hne hrpc fun hs => by cases hs) fun hold => ?_
  refine gwp_ite (fun hnew => ?_) fun hnew => ?_
  · have hmax : m.term ≤ int32Max := (h.shared.inv.leader_bound hl).2.trans (h.shared.term_le peer)
    refine gwp_seq (becomeFollower_spec h hmax fun hy => ?_) fun _ Γ₁ c₁ hext ⟨h₁, hd₁⟩ => ?_
    · rcases hnew with hlt | hr
      · exact h.toReady.freed_of_later hrun hy hl hlt
      · exact (h.loose.promise hy hrun).freed_of_role hr
    · refine followLeader_spec h₁ hp hne (hm.mono hext) ?_ hd₁.role hprev
      rw [← h₁.core.term, hd₁.term]
      exact max_eq_right (not_lt.mp hold)
  · push Not at hnew
    refine followLeader_spec h hp hne hm ?_ hnew.2 hprev
    rw [← h.core.term]
    omega

end Setting

end RaftKV
