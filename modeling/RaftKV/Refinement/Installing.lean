import RaftKV.Refinement.Following

/-!
# Installing a snapshot keeps the relation

A snapshot is installed by three writes. The first one, of the intent, is the step of the
protocol : from then on the logical log of the node is the one after the install, and the
databases are `Staged`. The second one replaces the KV database by the contents the snapshot
has, and the third one settles the Raft database. A crash between them leaves a staged install
that the constructor finishes.
-/

namespace RaftKV

open RaftM GhostLogic
open Consensus (lastTerm Decided IsQuorum)

/-- The log after an install of a snapshot of `P`. -/
def installLog (L P : List LogEntry) : List LogEntry :=
  if P.length ≤ L.length ∧ lastTerm (L.take P.length) = lastTerm P then L else P

/-- Node `v` takes the log after an install. -/
def Ghost.install (Γ : Ghost) (v : ℤ) (P : List LogEntry) : Ghost :=
  Γ.setHist (Γ.hist.setLog v (installLog (Γ.hist.log v) P))

theorem log_install (Γ : Ghost) (v : ℤ) (P : List LogEntry) :
    (Γ.install v P).hist.log v = installLog (Γ.hist.log v) P :=
  Function.update_self ..

namespace Setting

variable {S : Setting} {v peer : ℤ} {W : World} {Γ : Ghost} {c : Context} {P : List LogEntry}
  {s : Snapshot}

/-! ## The intent -/

/-- A snapshot of a decided prefix of the leader's log. -/
structure Received (S : Setting) (h : History) (t : ℤ) (s : Snapshot) (P : List LogEntry) :
    Prop where
  index : s.index = P.length
  term : s.term = lastTerm P
  log : P <+: h.leaderLog t
  decided : Decided S.members h t P
  size : s.data.length ≤ kMaxSnapshotBytes
  data : S.clean → s.data = snapshotOf P

theorem prefix_installLog (h : S.Shared W) {t : ℤ} (hl : W.hist.leader t = some peer)
    (hP : P <+: W.hist.leaderLog t) : P <+: installLog (W.hist.log v) P := by
  rw [installLog]
  split_ifs with hc
  · exact h.prefix_of_lastTerm hl hP hc.1 hc.2
  · exact List.prefix_rfl

theorem installLog_keeps {L M : List LogEntry} (hP : P <+: M) :
    ∀ p, p <+: L → p <+: M → p <+: installLog L P := by
  intro p hpL hpM
  rw [installLog]
  split_ifs with hc
  · exact hpL
  refine List.prefix_of_prefix_length_le hpM hP ?_
  by_contra hlong
  refine hc ⟨by have := hpL.length_le; omega, ?_⟩
  have h₁ : P <+: p := List.prefix_of_prefix_length_le hP hpM (by omega)
  rw [← List.prefix_iff_eq_take.mp (h₁.trans hpL)]

/-- The first write of an install. -/
theorem Steady.stage (h : S.Steady v Γ c) (hl : Γ.hist.leader (Γ.hist.term v) = some peer)
    (hp : peer ≠ v) (hs : S.Received Γ.hist (Γ.hist.term v) s P)
    (hlt : c.node.lastApplied < s.index) (hquiet : Quiet c.node.lastApplied c.exec c.sm) :
    c.log.stageSnapshotInstall s = .ok { c.log with intent := some s } ∧
      Consensus.Le v Γ.hist (Γ.install v P).hist ∧
      S.Safe v (Γ.install v P)
        { c with log := { c.log with intent := some s } } ∧
      S.Staged (Γ.install v P).hist v
        { c.log with intent := some s } c.sm s := by
  have hset := h.core.settled
  obtain ⟨a, k, ha, hk, -, -, hsa, -⟩ := h.core.progress
  have hidx := hs.index
  have hmatched := (h.shared.inv.leader_matched hl).initial hs.log
  have hne : P ≠ [] := by
    rintro rfl
    simp at hidx
    omega
  have hlast : s.term = (P.getLast hne).term := by
    rw [hs.term, Consensus.lastTerm_eq_getElem hne]
    rfl
  have hpos : 0 < s.term := by
    rw [hlast]
    exact h.shared.inv.term_pos hmatched (List.getLast_mem hne)
  have hmax : s.term ≤ int32Max := by
    rw [hlast]
    exact (h.shared.inv.leaderLog_terms hl _ (hs.log.subset (List.getLast_mem hne))).trans
      (h.shared.term_le v)
  have hstep : Consensus.Step S.members S.Good v Γ.hist
      (Γ.install v P).hist := by
    refine .follow hl hp ?_ (installLog_keeps hs.log)
    rw [installLog]
    split_ifs
    · exact .inl List.prefix_rfl
    · exact .inr hs.log
  have hle := (h.shared.inv.step hstep).2
  have hown := log_install Γ v P
  have hcommit : ((Γ.install v P).hist.log v).take k =
      (Γ.hist.log v).take k := by
    rw [hown]
    exact h.toReady.take_committed hl (installLog_keeps hs.log) hk
  have hprefix : P <+: installLog (Γ.hist.log v) P := prefix_installLog h.shared hl hs.log
  have htake : (installLog (Γ.hist.log v) P).take P.length = P :=
    (List.prefix_iff_eq_take.mp hprefix).symm
  have hrep : LogRep { c.log with intent := some s } (Γ.hist.log v) := hset.rep.congr rfl rfl
  have hbounds := lastTerm_bounds h.shared v
  have hlength := h.shared.length_lt v
  have hstaged : S.Staged (Γ.install v P).hist v
      { c.log with intent := some s } c.sm s := by
    refine
      { intent := rfl
        index := ⟨P.length, hidx, by omega, ?_, ?_, ?_⟩
        data := ⟨hs.size, fun hy _ => ?_⟩
        newer := by simp only; omega
        old_term := ?_
        old_last := ?_
        behind := by have := hquiet.applied; omega
        install := ?_ }
    · rw [hown]
      exact hprefix.length_le
    · rw [hown, htake]
      exact hs.term
    · rw [hown, htake]
      exact hs.decided.step hle h.shared.inv
    · rw [hown, hidx, Int.toNat_natCast, htake]
      exact hs.data hy
    · rw [hrep.lastTerm_eq]
      exact hbounds.2
    · rw [hrep.lastIndex_eq]
      exact hlength
    rw [hown]
    obtain ⟨b, h₁, h₂, h₃, h₄, h₅⟩ := hrep.install hidx (by simp only; omega) hs.term hpos hs.size
    refine ⟨b, h₁, h₂, h₃, h₄, ?_⟩
    rwa [hs.term] at h₅
  refine ⟨?_, hle, ?_, hstaged⟩
  · rw [AbstractLog.stageSnapshotInstall, if_neg (by have := hs.size; omega), hset.intent]
    rfl
  exact
    { member := h.member
      id := h.id
      shared := h.shared.setHist_of_eq h.member hstep rfl rfl
      disk := h.disk.setLog hle h.shared.inv rfl rfl hcommit (hk ▸ h.core.store_le.2) rfl
        (.inr ⟨s, hstaged⟩)
      progress := h.progress
      fresh := h.fresh }

/-! ## The new contents -/

/-- The batch that replaces the KV database, and what it leaves. -/
structure Replaces (S : Setting) (sm : Store) (s : Snapshot) (P : List LogEntry)
    (batch : List BatchOp) : Prop where
  valid : ∃ entries, sm.replaceBatch s.index entries = .ok batch
  store : S.clean → sm.replaceAll s.index batch = storeOf P

/-- Snapshots of the server's commands pass validation. -/
theorem gwp_installStore {α : Type} {Q : α → Ghost → Context → Prop} {after : RaftM Unit}
    {k : Unit → RaftM α} (hsafe : S.Safe v Γ c) (hidx : s.index = P.length) (hne : P ≠ [])
    (hsize : s.data.length ≤ kMaxSnapshotBytes)
    (hdata : S.clean → (∀ e ∈ P, Clean e.command) ∧ s.data = snapshotOf P)
    (hbehind : c.sm.lastApplied ≤ s.index)
    (hnext : ∀ batch, S.Replaces c.sm s P batch → (S.logic v).gwp
      (do
        after
        crashPoint
        modify fun c => { c with sm := c.sm.replaceAll s.index batch }
        observe (.installed s.index (← get).busy)
        k ()) Q Γ c) :
    (S.logic v).gwp (installStore s.index s.data after >>= k) Q Γ c := by
  have hvalid : S.clean → ∃ entries batch, parseSnapshot s.data = .ok entries ∧
      c.sm.replaceBatch s.index entries = .ok batch ∧
      c.sm.replaceAll s.index batch = storeOf P := by
    intro hy
    obtain ⟨hclean, hd⟩ := hdata hy
    rw [hidx] at hbehind ⊢
    rw [hd] at hsize ⊢
    exact install_snapshotOf hclean hne hsize hbehind
  rw [installStore]
  cases hparse : parseSnapshot s.data with
  | error text =>
    refine gwp_bind (gwp_fail hsafe fun hy => ?_)
    obtain ⟨entries, batch, h₁, -⟩ := hvalid hy.1
    rw [hparse] at h₁
    cases h₁
  | ok entries =>
    simp only [bind_assoc]
    rw [gwp_get_bind]
    cases hbatch : c.sm.replaceBatch s.index entries with
    | error text =>
      refine gwp_bind (gwp_fail hsafe fun hy => ?_)
      obtain ⟨entries', batch, h₁, h₂, -⟩ := hvalid hy.1
      cases hparse.symm.trans h₁
      cases hbatch.symm.trans h₂
    | ok batch =>
      simp only [bind_assoc]
      refine hnext batch ⟨⟨entries, hbatch⟩, fun hy => ?_⟩
      obtain ⟨entries', batch', h₁, h₂, h₃⟩ := hvalid hy
      cases hparse.symm.trans h₁
      cases hbatch.symm.trans h₂
      exact h₃

section

variable (h : S.Safe v Γ c) (hst : S.Staged Γ.hist v c.log c.sm s)
include h hst

/-- The second write of an install. -/
theorem Safe.replace
    {batch : List BatchOp} (hb : S.Replaces c.sm s P batch) (hidx : s.index = P.length)
    (hP : P <+: Γ.hist.log v) :
    S.Safe v Γ { c with
      sm := c.sm.replaceAll s.index batch
      trace := c.trace ++ [(v, .installed s.index false)] } ∧
    S.Staged Γ.hist v c.log (c.sm.replaceAll s.index batch) s := by
  obtain ⟨k, hk, hkpos, hklen, hterm, hdec⟩ := hst.index
  obtain rfl : k = P.length := by omega
  have hst' : S.Staged Γ.hist v c.log (c.sm.replaceAll s.index batch) s :=
    { hst with behind := le_rfl }
  have hlength := h.shared.length_lt v
  have hlt : s.index ≤ int64Max := by
    have : ((Γ.hist.log v).length : ℤ) < int64Max := hlength
    omega
  have htake : (Γ.hist.log v).take P.length = P := (List.prefix_iff_eq_take.mp hP).symm
  obtain ⟨entries, hentries⟩ := hb.valid
  refine ⟨⟨h.member, h.id, h.shared.observe rfl (fun _ _ heq => by cases heq),
    ⟨h.disk.hard, Store.marked_replaceAll hentries (by omega) hlt, ⟨P.length, hidx, hklen, hdec,
      fun hy => ?_⟩, .inr ⟨s, hst'⟩⟩, ?_, h.fresh⟩, hst'⟩
  · rw [htake]
    exact hb.store hy
  · rw [appliedUpTo_append_own, h.progress]
    exact if_pos hst.behind

theorem gwp_replaceStore {α : Type} {Q : α → Ghost → Context → Prop} {k : RaftM α}
    {batch : List BatchOp}
    (hb : S.Replaces c.sm s P batch) (hidx : s.index = P.length) (hP : P <+: Γ.hist.log v)
    (hbusy : c.busy = false)
    (hk : ∀ env : Env, env.clock = c.env.clock →
      S.Safe v Γ { c with
        sm := c.sm.replaceAll s.index batch
        trace := c.trace ++ [(v, .installed s.index false)], env := env } →
      S.Staged Γ.hist v c.log (c.sm.replaceAll s.index batch) s →
      (S.logic v).gwp k Q Γ { c with
        sm := c.sm.replaceAll s.index batch
        trace := c.trace ++ [(v, .installed s.index false)], env := env }) :
    (S.logic v).gwp
      (do
        crashPoint
        modify fun c => { c with sm := c.sm.replaceAll s.index batch }
        observe (.installed s.index (← get).busy)
        k) Q Γ c := by
  refine gwp_crashPoint h fun env henv => ?_
  refine gwp_bind (gwp_modify Γ ⟨World.Grows.refl v _, rfl, rfl⟩ ?_)
  rw [gwp_get_bind]
  refine gwp_observe h.id ?_
  obtain ⟨h₁, hst₁⟩ := h.replace hst hb hidx hP
  have hq := hk env henv (h₁.env henv.ge) hst₁
  rw [← hbusy] at hq
  exact hq

/-- The third write of an install. -/
theorem Safe.settle (hsm : c.sm.lastApplied = s.index) :
    ∃ log, c.log.installSnapshot s = .ok log ∧ log.snapshot = s ∧
      log.hardState = c.log.hardState ∧ S.Settled log c.sm (Γ.hist.log v) ∧
      S.Safe v Γ { c with log := log } := by
  obtain ⟨log, hinstall, hsnap, hhard, hintent, hrep⟩ := hst.install
  have hset : S.Settled log c.sm (Γ.hist.log v) :=
    ⟨hintent, hrep, by rw [hsnap, hsm], by rw [hsnap]; exact hst.data⟩
  exact ⟨log, hinstall, hsnap, hhard, hset, { h with
    disk := { h.disk with
      hard := by rw [hhard]; exact h.disk.hard
      body := .inl hset } }⟩

end

/-! ## The install of a follower -/

theorem Steady.installed (h : S.Steady v Γ c) (hl : Γ.hist.leader (Γ.hist.term v) = some peer)
    (hp : peer ≠ v) (hs : S.Received Γ.hist (Γ.hist.term v) s P)
    (hquiet : Quiet c.node.lastApplied c.exec c.sm)
    (hle : Consensus.Le v Γ.hist (Γ.install v P).hist)
    {log : AbstractLog} {sm : Store} {env : Env} (henv : c.env.clock ≤ env.clock)
    (hsafe : S.Safe v (Γ.install v P) { c with
      log := log, sm := sm, trace := c.trace ++ [(v, .installed s.index false)], env := env })
    (hset : S.Settled log sm (installLog (Γ.hist.log v) P)) (hsnap : log.snapshot = s)
    (hsm : sm.lastApplied = s.index) :
    S.Steady v (Γ.install v P) { c with
      log := log, sm := sm, trace := c.trace ++ [(v, .installed s.index false)], env := env
      node := { c.node with
        lastApplied := s.index
        commitIndex := max c.node.commitIndex s.index
        snapshotReceive := {} } } := by
  have hr := h.toReady.not_leader hl hp
  have hinv := h.shared.inv
  have hown := log_install Γ v P
  have hprefix : P <+: installLog (Γ.hist.log v) P := prefix_installLog h.shared hl hs.log
  obtain ⟨a, k, ha, hk, hak, hklen, hsa, hdec⟩ := h.core.progress
  have hcommit := h.toReady.take_committed hl (installLog_keeps hs.log) hk
  have hidx := hs.index
  -- the commit index covers a decided prefix, whichever of the two it is
  have hprogress : ∃ j : ℕ, max c.node.commitIndex s.index = j ∧ P.length ≤ j ∧
      j ≤ (installLog (Γ.hist.log v) P).length ∧
      Decided S.members Γ.hist (Γ.hist.term v) ((installLog (Γ.hist.log v) P).take j) := by
    rcases le_total k P.length with hle' | hle'
    · refine ⟨P.length, by omega, le_rfl, hprefix.length_le, ?_⟩
      rw [← List.prefix_iff_eq_take.mp hprefix]
      exact hs.decided
    refine ⟨k, by omega, hle', ?_, by rw [hcommit]; exact hdec⟩
    have := congrArg List.length hcommit
    simp only [List.length_take] at this
    omega
  obtain ⟨j, hj, hPj, hjlen, hjdec⟩ := hprogress
  have hcand := fun hc : c.node.role = .candidate =>
    h.core.outvoted hle rfl rfl (Option.isSome_iff_exists.mpr ⟨peer, hl⟩) hc
  rw [← hown] at hset hjlen hjdec
  refine
    { hsafe with
      loose :=
        { core :=
            { h.core with
              settled := hset
              progress := ⟨P.length, j, hidx, hj, hPj, hjlen, by rw [hsnap, hidx],
                hjdec.step hle hinv⟩
              exec := .inl ⟨hquiet.job, hquiet.completions, hsm⟩
              receive := fun hpos => absurd (show (0 : ℤ) < -1 from hpos) (by decide)
              candidate := hcand
              leader := fun hc => absurd hc hr
              serve := fun hc => absurd hc hr }
          rpc := h.loose.rpc
          lead := fun hc => absurd hc hr
          proposals := fun hc => absurd hc hr
          reads := fun hc => absurd hc hr
          promise := fun hy hrun => ?_ }
      idle := fun hc => { h.idle hc with } }
  have hg : (c.world Γ).Grows v
      ((c.world (Γ.install v P)).tick env.clock) :=
    (World.Grows.setHist hle).trans (World.Grows.tick henv)
  intro term time he
  refine (h.loose.promise hy hrun).mono hg (fun _ _ hmem => hmem) term time ?_
  rcases List.mem_append.mp he with he | he
  · exact he
  · cases List.mem_singleton.mp he

theorem installReceived_spec (h : S.Steady v Γ c)
    (hl : Γ.hist.leader (Γ.hist.term v) = some peer) (hp : peer ≠ v)
    (hs : S.Received Γ.hist (Γ.hist.term v) s P) (hlt : c.node.lastApplied < s.index)
    (hinflight : c.node.applyInflight = false) :
    (S.logic v).gwp (installReceived s) (fun _ Γ' c' => S.Steady v Γ' c' ∧
      Γ'.hist.term v = Γ.hist.term v ∧ P <+: Γ'.hist.log v) Γ c := by
  have hquiet := h.toReady.quiet hinflight
  obtain ⟨hwrite, hle, hsafe, hst⟩ := h.stage hl hp hs hlt hquiet
  have hown := log_install Γ v P
  have hprefix : P <+: installLog (Γ.hist.log v) P := prefix_installLog h.shared hl hs.log
  have hnn := h.toReady.applied_le
  obtain ⟨a, -, ha, -⟩ := h.core.progress
  have hidx := hs.index
  have hne : P ≠ [] := by
    rintro rfl
    simp at hidx
    omega
  rw [installReceived]
  refine gwp_installStore h.toSafe hidx hne hs.size (fun hy => ⟨fun e he => ?_, hs.data hy⟩)
    (by have := hquiet.applied; omega) fun batch hb => ?_
  · obtain ⟨i, hi, rfl⟩ := List.getElem_of_mem he
    exact (h.shared.inv.good ((h.shared.inv.leader_matched hl).initial hs.log) hi).2.2.2.2.1 hy
  refine gwp_writeLog_step h.toSafe hwrite hle fun env henv => ?_
  refine gwp_replaceStore (hsafe.env henv.ge) hst hb hidx (by rw [← hown] at hprefix; exact hprefix)
    ?_ fun env' henv' hsafe' hst' => ?_
  · simp only [Context.busy, hinflight, hquiet.job, hquiet.completions]
    rfl
  obtain ⟨log, hinstall, hsnap, -, hset, hsafe''⟩ := hsafe'.settle hst' rfl
  refine gwp_writeLog hsafe' hinstall fun env'' henv'' => gwp_modifyNode_last ?_
  have henv₂ : c.env.clock ≤ env''.clock := by
    simp only at henv' henv''
    omega
  refine ⟨h.installed hl hp hs hquiet hle henv₂ (hsafe''.env henv''.ge) ?_ hsnap rfl, rfl, ?_⟩
  · rw [← hown]
    exact hset
  · rw [← hown] at hprefix
    exact hprefix

/-! ## Chunks -/

variable {m : InstallSnapshot}

/-- What the request tells. -/
theorem Handling.chunk (h : Handling v peer (.installSnapshot m) c)
    (hsh : S.Shared (c.world Γ)) : S.ChunkOK Γ.hist peer m := by
  obtain ⟨e, hmem, rfl, -, -, hm⟩ := h.sent
  have := (hsh.msgs e hmem).2
  rw [hm] at this
  exact this.1

section

variable (h : S.Steady v Γ c)
include h

theorem replyInstall_spec (hp : peer ∈ S.members) (hne : peer ≠ v) (rpcId : ℕ) (success : Bool) :
    (S.logic v).gwp (replyInstall peer rpcId success false) (fun _ Γ' c' => S.Steady v Γ' c')
      Γ c := by
  rw [replyInstall, gwp_getNode, h.core.term]
  refine gwp_mono (h.reply ?_ rfl hp hne) fun _ _ _ _ hq => hq.1
  exact ⟨trivial, le_rfl, fun hc => by cases hc⟩

theorem replyComplete_spec (hp : peer ∈ S.members) (hne : peer ≠ v)
    (hm : Handling v peer (.installSnapshot m) c)
    (hterm : Γ.hist.term v = m.term) (hidx : (P.length : ℤ) = m.lastIncludedIndex)
    (hP : P <+: Γ.hist.log v) (hPl : P <+: Γ.hist.leaderLog (Γ.hist.term v)) :
    (S.logic v).gwp (replyInstall peer m.rpcId true true) (fun _ Γ' c' => S.Steady v Γ' c')
      Γ c := by
  have hl := (hm.chunk h.shared).1
  rw [← hterm] at hl
  have htake := List.prefix_iff_eq_take.mp hP
  obtain ⟨h₁, hext⟩ := h.acknowledge hl hP.length_le (by rw [← htake]; exact hPl)
  refine gwp_ghost _ hext ?_
  rw [replyInstall, gwp_getNode, h.core.term]
  refine gwp_mono (h₁.reply ?_ rfl hp hne) fun _ _ _ _ hq => hq.1
  obtain ⟨e, hmem, hsrc, -, -, hmsg⟩ := hm.sent
  refine ⟨trivial, le_rfl, fun _ => ⟨e, hmem, hsrc, m, hmsg, hterm.symm, rfl, P.length,
    hidx.symm, ?_⟩⟩
  simp [Context.world, Ghost.setHist, Consensus.State.setAck]

theorem Steady.setReceive {r : SnapshotReceive}
    (hr : 0 < r.index → ∃ P : List LogEntry, P.length = r.index ∧ lastTerm P = r.term ∧
      Decided S.members Γ.hist (Γ.hist.term v) P ∧ (S.clean → r.data <+: snapshotOf P)) :
    S.Steady v Γ { c with node := { c.node with snapshotReceive := r } } :=
  { h with
    loose := { h.loose with
      core := { h.loose.core with receive := hr }
      lead := fun hr => { h.loose.lead hr with }
      reads := fun hr => { h.loose.reads hr with }
      promise := h.loose.promise }
    idle := fun hr => { h.idle hr with } }

theorem Steady.dropReceive :
    S.Steady v Γ { c with node := { c.node with snapshotReceive := {} } } :=
  h.setReceive fun hpos => absurd (show (0 : ℤ) < -1 from hpos) (by decide)

theorem Steady.received_append
    (hpos : 0 < m.lastIncludedIndex) (hlen : (P.length : ℤ) = m.lastIncludedIndex)
    (hdec : Decided S.members Γ.hist (Γ.hist.term v) P)
    (hdata : S.clean → m.data <+: (snapshotOf P).drop m.offset.toNat)
    (hindex : (c.node.snapshotReceive.start m).index = m.lastIncludedIndex)
    (hoffset : m.offset = (c.node.snapshotReceive.start m).data.length) (hy : S.clean) :
    (c.node.snapshotReceive.start m).data ++ m.data <+: snapshotOf P := by
  have hbefore : (c.node.snapshotReceive.start m).data <+: snapshotOf P := by
    rw [SnapshotReceive.start] at hindex ⊢
    split_ifs at hindex ⊢ with h0
    · exact List.nil_prefix
    obtain ⟨P', h₁, -, h₃, h₄⟩ := h.core.receive (by omega)
    have : P' = P := h.shared.inv.decided_eq h₃ hdec (by omega)
    rw [← this]
    exact h₄ hy
  obtain ⟨rest, hrest⟩ := hbefore
  have hd := hdata hy
  rw [hoffset, Int.toNat_natCast, ← hrest, List.drop_left] at hd
  rw [← hrest]
  exact (List.prefix_append_right_inj _).mpr hd

theorem receiveChunk_spec (hp : peer ∈ S.members) (hne : peer ≠ v)
    (hm : Handling v peer (.installSnapshot m) c)
    (hterm : Γ.hist.term v = m.term) (hlt : c.node.lastApplied < m.lastIncludedIndex)
    (hinflight : c.node.applyInflight = false) :
    (S.logic v).gwp (receiveChunk peer m) (fun _ Γ' c' => S.Steady v Γ' c') Γ c := by
  obtain ⟨hl, P, hlen, hlast, hP, hdec, hclean⟩ := hm.chunk h.shared
  rw [← hterm] at hl hP hdec
  obtain ⟨a, -, ha, -⟩ := h.core.progress
  rw [receiveChunk, gwp_getNode]
  simp only
  refine gwp_ite (fun hfit => ?_) fun hfit => ?_
  swap
  · exact gwp_modifyNode (replyInstall_spec h.dropReceive hp hne _ _)
  obtain ⟨hindex, hterm', hoffset⟩ := hfit
  have happend := h.received_append (by omega) hlen hdec (fun hy => (hclean hy).2.1) hindex hoffset
  refine gwp_ite (fun _ => gwp_modifyNode (replyInstall_spec h.dropReceive hp hne _ _))
    fun hbig => ?_
  have h₁ : S.Steady v Γ { c with node := { c.node with
      snapshotReceive := { c.node.snapshotReceive.start m with
        data := (c.node.snapshotReceive.start m).data ++ m.data } } } :=
    h.setReceive fun _ => ⟨P, by simp only [hindex, hlen], by simp only [hterm', hlast], hdec,
      happend⟩
  refine gwp_unless (fun _ => gwp_modifyNode (replyInstall_spec h₁ hp hne _ _)) fun hdone => ?_
  have hrec : S.Received Γ.hist (Γ.hist.term v) ⟨m.lastIncludedIndex, m.lastIncludedTerm,
      (c.node.snapshotReceive.start m).data ++ m.data⟩ P :=
    { index := hlen.symm
      term := hlast.symm
      log := hP
      decided := hdec
      size := not_lt.mp hbig
      data := fun hy => (happend hy).eq_of_length (by
        have := (hclean hy).2.2 hdone
        rw [List.length_append]
        omega) }
  refine gwp_modifyNode (gwp_seq (installReceived_spec h₁ hl hne hrec hlt hinflight)
    fun _ Γ₂ c₂ hext ⟨h₂, ht₂, hP₂⟩ => ?_)
  have hext' : Extends v Γ c Γ₂ c₂ := ⟨hext.grows, hext.incarnation, hext.replyTo⟩
  refine replyComplete_spec h₂ hp hne (hm.mono hext') (ht₂.trans hterm) hlen hP₂ ?_
  rw [ht₂, (hext.leader hl hne).2]
  exact hP

theorem followSnapshot_spec (hp : peer ∈ S.members) (hne : peer ≠ v)
    (hm : Handling v peer (.installSnapshot m) c) (hterm : Γ.hist.term v = m.term) :
    (S.logic v).gwp (followSnapshot peer m) (fun _ Γ' c' => S.Steady v Γ' c') Γ c := by
  obtain ⟨hl, P, hlen, -, hP, hdec, -⟩ := hm.chunk h.shared
  rw [← hterm] at hl hP hdec
  rw [followSnapshot]
  refine gwp_modifyNode (gwp_resetElectionTimer fun env deadline henv hd => ?_)
  have h₁ := ((h.setLeader hp hl).env henv).setDeadline hd
  rw [gwp_getNode]
  by_cases hold : m.lastIncludedIndex ≤ c.node.lastApplied
  · rw [if_pos hold]
    refine gwp_modifyNode (replyComplete_spec h₁.dropReceive hp hne { hm with } hterm hlen ?_ hP)
    obtain ⟨a, k, ha, hk, hak, hklen, -⟩ := h.core.progress
    refine (List.prefix_of_prefix_length_le hP (h.toReady.committed_prefix hl hk) ?_).trans
      (List.take_prefix _ _)
    rw [List.length_take]
    omega
  rw [if_neg hold]
  refine gwp_ite (fun _ => replyInstall_spec h₁ hp hne _ _) fun hbusy => ?_
  split_ifs
  · exact gwp_modifyNode (replyInstall_spec h₁.dropReceive hp hne _ _)
  · exact receiveChunk_spec h₁ hp hne { hm with } hterm (not_le.mp hold) (by simpa using hbusy)

theorem handleInstallSnapshot_spec (hm : Handling v peer (.installSnapshot m) c) :
    (S.logic v).gwp (handleInstallSnapshot peer m) (fun _ Γ' c' => S.Steady v Γ' c') Γ c := by
  have hl := (hm.chunk h.shared).1
  rw [handleInstallSnapshot, gwp_getNode]
  refine gwp_unless (fun _ => gwp_pure h) fun hvalid => ?_
  simp only [InstallSnapshot.valid, Bool.and_eq_true] at hvalid
  have hrun := hvalid.1.1.1.1.1.1.1.1.1
  obtain ⟨hp, hne⟩ := mem_of_isRemotePeer h hvalid.1.1.1.1.1.1.1.1.2
  refine gwp_ite (fun _ => replyInstall_spec h hp hne _ _) fun hold => ?_
  refine gwp_ite (fun hnew => ?_) fun hnew => ?_
  · have hmax : m.term ≤ int32Max := (h.shared.inv.leader_bound hl).2.trans (h.shared.term_le peer)
    refine gwp_seq (becomeFollower_spec h hmax fun hy => h.toReady.freed_of_later hrun hy hl hnew)
      fun _ Γ₁ c₁ hext ⟨h₁, hd₁⟩ => followSnapshot_spec h₁ hp hne (hm.mono hext) ?_
    rw [← h₁.core.term, hd₁.term]
    exact max_eq_right hnew.le
  · refine followSnapshot_spec h hp hne hm ?_
    rw [← h.core.term]
    omega

end

end Setting

end RaftKV
