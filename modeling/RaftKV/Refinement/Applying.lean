import RaftKV.Refinement.Rounds

/-!
# Applying keeps the relation

A batch that is applied is a piece of the decided prefix of the log (`collectCommands_ok`), so
the KV database stays the result of a decided prefix (`applyBatch_spec`). A completion moves
`lastApplied` by the length of its batch, and the proposals in it are acknowledged as entries
that are decided in the leader's own term (`invokeProposal_ok`).
-/

namespace RaftKV

open RaftM GhostLogic
open Consensus (lastTerm Decided IsQuorum)

/-- The commands that are collected are those of a nonempty piece of the log. -/
theorem collectCommands_ok {a : AbstractLog} {L : List LogEntry} (h : LogRep a L)
    (hsmall : ∀ e ∈ L, e.command.length ≤ kMaxCommandBytes) {commit : ℕ} (hc : commit ≤ L.length) :
    ∀ (turns i count bytes : ℕ), a.snapshot.index ≤ i → ∃ k : ℕ,
      collectCommands a commit turns (i + 1) count bytes =
        .ok (((L.drop i).take k).map LogEntry.command) ∧ (k = 0 ∨ i + k ≤ commit) ∧
      (0 < turns → count = 0 → i < commit → 0 < k) := by
  intro turns
  induction turns with
  | zero => exact fun i count bytes _ => ⟨0, by simp [collectCommands], .inl rfl, by omega⟩
  | succ turns ih =>
    intro i count bytes hi
    rw [collectCommands]
    by_cases hlast : (commit : ℤ) < (i : ℤ) + 1
    · exact ⟨0, by rw [if_pos hlast]; simp, .inl rfl, fun _ _ _ => by omega⟩
    have hlt : i < L.length := by omega
    rw [if_neg hlast, h.get_eq hi, List.getElem?_eq_getElem hlt]
    simp only [if_neg (not_lt.mpr (hsmall _ (List.getElem_mem hlt)))]
    by_cases hfull : 0 < count ∧
        (kMaxBatchEntries ≤ count ∨ kMaxBatchBytes - bytes < L[i].command.length)
    · exact ⟨0, by rw [if_pos hfull]; simp, .inl rfl, fun _ h0 _ => by omega⟩
    obtain ⟨k, hk, hle, -⟩ := ih (i + 1) (count + 1) (bytes + L[i].command.length) (by omega)
    rw [Nat.cast_add, Nat.cast_one] at hk
    refine ⟨k + 1, ?_, .inr (by omega), fun _ _ _ => Nat.succ_pos k⟩
    rw [if_neg hfull, hk, List.drop_eq_getElem_cons hlt, List.take_succ_cons, List.map_cons]
    rfl

namespace Setting

variable {S : Setting} {v : ℤ} {W : World} {Γ : Ghost} {c : Context}

/-! ## Progress -/

/-- The protocol and the role are as before, and what is committed stays committed. -/
def Advances (Γ : Ghost) (c : Context) (Γ' : Ghost) (c' : Context) : Prop :=
  Γ'.hist = Γ.hist ∧ c'.node.role = c.node.role ∧ c'.node.running = c.node.running ∧
    c.node.commitIndex ≤ c'.node.commitIndex

section Advances

variable {Γ' Γ'' : Ghost} {c' c'' : Context}

theorem Advances.refl (Γ : Ghost) (c : Context) : Advances Γ c Γ c :=
  ⟨rfl, rfl, rfl, le_rfl⟩

section

variable (h : Advances Γ c Γ' c')
include h

theorem Advances.hist : Γ'.hist = Γ.hist := h.1

theorem Advances.role : c'.node.role = c.node.role := h.2.1

theorem Advances.running : c'.node.running = c.node.running := h.2.2.1

theorem Advances.commit : c.node.commitIndex ≤ c'.node.commitIndex :=
  h.2.2.2

theorem Advances.trans (h' : Advances Γ' c' Γ'' c'') : Advances Γ c Γ'' c'' :=
  ⟨h'.hist.trans h.hist, h'.role.trans h.role, h'.running.trans h.running,
    h.commit.trans h'.commit⟩

end

theorem Stays.advances (h : Stays Γ c Γ' c') : Advances Γ c Γ' c' :=
  ⟨h.hist, h.role, h.running, h.commitIndex.ge⟩

end Advances

/-! ## Callbacks of proposals -/

theorem gwp_invokeProposal {item : ℤ × Pending} {ok : Bool} {reply : Bytes}
    {Q : Unit → Ghost → Context → Prop} (h : S.Ready v Γ c)
    (hok : ok = true → c.node.role = .leader ∧ item.1 ≤ c.node.commitIndex ∧ RowOK Γ.hist v item)
    (hnone : item.2.callback = none → Q () Γ c)
    (hnext : ∀ (script : Script) (trace : List (ℤ × Event)) (env : Env),
      S.Ready v Γ { c with trace := trace, env := env } →
      (S.logic v).gwp (runScript script) Q Γ { c with trace := trace, env := env }) :
    (S.logic v).gwp (invokeProposal item ok reply) Q Γ c := by
  rw [invokeProposal]
  rcases hcallback : item.2.callback with _ | callback
  · exact gwp_pure (hnone hcallback)
  refine gwp_crashPoint h.toSafe fun env henv => ?_
  have hs := h.env henv.ge
  refine gwp_observe hs.id (hnext _ _ _ (hs.observe ?_ (fun _ _ he => by cases he) ?_ rfl))
  · intro htrue
    obtain ⟨hr, hle, i, e, hidx, he, ht, hterm, hcommand⟩ := hok htrue
    obtain ⟨a, k, -, hk, -, hklen, -, hdec⟩ := h.core.progress
    have hlt : i < (Γ.hist.log v).length := (List.getElem?_eq_some_iff.mp he).1
    have hrow : item.2.term = Γ.hist.term v := hterm.symm.trans ht
    refine ⟨?_, (Γ.hist.log v).take i, e, ?_, ?_, hterm, hcommand⟩
    · change Γ.hist.leader item.2.term = some v
      rw [hrow]
      exact h.core.leader hr
    · rw [List.length_take, min_eq_left hlt.le, hidx]
    change Decided S.members Γ.hist item.2.term _
    rw [hrow]
    refine hdec.initial ?_
    have : (Γ.hist.log v).take i ++ [e] = (Γ.hist.log v).take (i + 1) := by
      rw [List.take_add_one, he]
      rfl
    rw [this]
    exact List.take_prefix_take_left (by omega)
  · intro origin index command reply' he
    obtain ⟨-, rfl, -, -, hok', -⟩ := Event.proposal.inj he
    exact (hok hok').2.1

theorem invokeProposal_ok (h : S.Steady v Γ c) (hr : c.node.role = .leader) {item : ℤ × Pending}
    {reply : Bytes} (hle : item.1 ≤ c.node.commitIndex) (hrow : RowOK Γ.hist v item) :
    (S.logic v).gwp (invokeProposal item true reply)
      (fun _ Γ' c' => S.Steady v Γ' c' ∧ Stays Γ c Γ' c') Γ c :=
  gwp_invokeProposal h.toReady (fun _ => ⟨hr, hle, hrow⟩) (fun _ => ⟨h, Stays.refl Γ c⟩)
    fun _ _ _ hs => runScript_keeps _ Γ _ { hs with idle := h.idle }

theorem invokeProposal_fail (item : ℤ × Pending) (reply : Bytes) :
    S.Keeps v (invokeProposal item false reply) := fun Γ c h =>
  gwp_invokeProposal h.toReady (fun hf => by cases hf) (fun _ => ⟨h, Stays.refl Γ c⟩)
    fun _ _ _ hs => runScript_keeps _ Γ _ { hs with idle := h.idle }

theorem invokeProposal_passive (item : ℤ × Pending) (reply : Bytes) :
    S.Passive v (invokeProposal item false reply) := fun Γ c h hr =>
  gwp_invokeProposal h (fun hf => by cases hf) (fun _ => ⟨h, rfl, rfl, rfl, rfl, rfl⟩)
    fun _ _ _ hs => gwp_mono (runScript_passive _ Γ _ hs hr) fun _ _ _ _ hq =>
      ⟨hq.1, hq.2.ghost, hq.2.node, hq.2.log, hq.2.sm, hq.2.exec⟩

theorem failProposals_keeps (reply : Bytes) (items : List (ℤ × Pending)) :
    S.KeepsLead v (failProposals reply items) :=
  KeepsLead.forM fun item _ => (invokeProposal_fail item reply).lead

theorem failProposals_passive (reply : Bytes) (items : List (ℤ × Pending)) :
    S.Passive v (failProposals reply items) :=
  Passive.forM fun item _ => invokeProposal_passive item reply

theorem failPending_spec (h : S.Ready v Γ c) (hr : c.node.role ≠ .leader) (result : String) :
    (S.logic v).gwp (failPending result) (fun _ Γ' c' => S.Ready v Γ' c' ∧
      Untouched Γ { c with node := { c.node with pending := [], pendingBytes := 0 } } Γ' c')
      Γ c := by
  rw [failPending, gwp_getNode]
  refine gwp_modifyNode (failProposals_passive _ _ Γ _ { h with
    loose := { h.loose with
      core := { h.loose.core with }
      lead := fun hl => absurd hl hr
      proposals := fun hl => absurd hl hr
      reads := fun hl => absurd hl hr
      promise := h.loose.promise } } hr)

theorem Steady.setPending (h : S.Steady v Γ c) (hr : c.node.role = .leader)
    {items : List (ℤ × Pending)} {bytes : ℕ} (hitems : ∀ item ∈ items, item ∈ c.node.pending) :
    S.Steady v Γ { c with node := { c.node with pending := items, pendingBytes := bytes } } :=
  { h with
    loose := { h.loose with
      core := { h.loose.core with }
      lead := fun hr => { h.loose.lead hr with }
      proposals := fun hr item hmem => h.loose.proposals hr item (hitems item hmem)
      reads := fun hr => { h.loose.reads hr with }
      promise := h.loose.promise }
    idle := fun hne => absurd hr hne }

theorem expireUncommittedProposals_keeps : S.KeepsLead v expireUncommittedProposals := by
  intro Γ c h hr
  rw [expireUncommittedProposals]
  refine gwp_now fun env henv => ?_
  rw [gwp_getNode]
  refine gwp_modifyNode ?_
  exact failProposals_keeps _ _ Γ _ ((h.env henv).setPending hr
    fun item hmem => List.mem_of_mem_filter hmem) hr

/-! ## Snapshots of the state machine -/

theorem Steady.setLog (h : S.Steady v Γ c) {log : AbstractLog}
    (hset : S.Settled log c.sm (Γ.hist.log v)) (hhard : log.hardState = c.log.hardState)
    (hsnap : log.snapshot.index ≤ c.node.lastApplied) : S.Steady v Γ { c with log := log } :=
  { h with
    disk := { h.disk with
      hard := by rw [hhard]; exact h.disk.hard
      body := .inl hset }
    loose := { h.loose with
      core := { h.loose.core with
        settled := hset
        progress := by
          obtain ⟨a, k, ha, h₁, h₂, h₃, -, h₄⟩ := h.core.progress
          exact ⟨a, k, ha, h₁, h₂, h₃, ha ▸ hsnap, h₄⟩ } } }

theorem Ready.applied_le (h : S.Ready v Γ c) : c.node.lastApplied ≤ c.node.commitIndex := by
  obtain ⟨a, k, ha, hk, hak, -⟩ := h.core.progress
  omega

/-- Nothing is with the executor of a node that has no batch in flight. -/
theorem Ready.quiet (h : S.Ready v Γ c) (hinflight : c.node.applyInflight = false) :
    Quiet c.node.lastApplied c.exec c.sm := by
  rcases h.core.exec with hq | hb
  · exact hq
  · rw [hinflight] at hb
    cases hb.inflight

theorem Shared.good (h : S.Shared W) (w : ℤ) : ∀ e ∈ W.hist.log w, ∃ i, S.Good i e := by
  intro e he
  obtain ⟨i, hi, rfl⟩ := List.getElem_of_mem he
  exact ⟨i, h.inv.good (h.inv.log_matched w) hi⟩

theorem Shared.clean (h : S.Shared W) (hy : S.clean) (w : ℤ) :
    ∀ e ∈ W.hist.log w, Clean e.command := by
  intro e he
  obtain ⟨i, -, -, -, -, hclean, -⟩ := h.good w e he
  exact hclean hy

theorem Shared.readable (h : S.Shared W) (hy : S.readable) (w : ℤ) :
    ∀ e ∈ W.hist.log w, (decodeCommand e.command).isSome := by
  intro e he
  obtain ⟨i, -, -, -, -, -, hreadable⟩ := h.good w e he
  exact hreadable hy

theorem Shared.length_lt (h : S.Shared W) (w : ℤ) : ((W.hist.log w).length : ℤ) < int64Max := by
  rcases Nat.eq_zero_or_pos (W.hist.log w).length with h0 | hpos
  · rw [h0]
    decide
  have hgood := h.inv.good (h.inv.log_matched w) (Nat.sub_lt hpos Nat.one_pos)
  have h₁ := hgood.1
  have h₂ := hgood.2.1
  omega

theorem maybeSnapshot_spec (h : S.Steady v Γ c) : (S.logic v).gwp maybeSnapshot
      (fun _ Γ' c' => S.Steady v Γ' c' ∧ Advances Γ c Γ' c') Γ c := by
  rw [maybeSnapshot, gwp_getNode, gwp_getLog]
  refine gwp_ite (fun hdue => ?_) fun hdue => ?_
  · rw [gwp_get_bind]
    simp only [Node.snapshotDue, Bool.and_eq_true, Bool.not_eq_true', decide_eq_true_eq] at hdue
    obtain ⟨⟨⟨⟨⟨⟨-, hinflight⟩, -⟩, hlt⟩, -⟩, -⟩, hpos⟩ := hdue
    cases hexport : c.sm.exportSnapshot with
    | error text =>
      refine gwp_fail h.toSafe fun _ => ?_
      rw [Store.exportSnapshot] at hexport
      split_ifs at hexport <;> · obtain rfl := Except.error.inj hexport; simp [expected]
    | ok data =>
      have hquiet := h.toReady.quiet hinflight
      have hbusy : c.busy = false := by
        simp [Context.busy, hinflight, hquiet.job, hquiet.completions]
      simp only
      rw [gwp_get_bind]
      refine gwp_observe h.id (gwp_modifyNode ?_)
      have hs : S.Steady v Γ { c with
          trace := c.trace ++ [(v, .exported c.node.lastApplied c.busy)]
          node := { c.node with lastSnapshotAttempt := c.node.lastApplied } } :=
        (h.note (e := .exported _ _) hbusy rfl).tweak ..
      refine gwp_ite (fun _ => gwp_pure ⟨hs, rfl, rfl, rfl, le_rfl⟩) fun hbig => ?_
      obtain ⟨a, k, ha, hk, hak, hkle, hsa, hdec⟩ := h.core.progress
      have hrep := h.core.settled.rep
      have hterm : c.log.getTerm c.node.lastApplied = lastTerm ((Γ.hist.log v).take a) := by
        rw [ha]
        exact hrep.getTerm_eq (by omega) (by omega)
      have hdata : S.clean → data = snapshotOf ((Γ.hist.log v).take a) := by
        intro hy
        obtain ⟨k', hk', -, -, hsm⟩ := h.disk.applied
        obtain rfl : k' = a := by
          have := hquiet.applied
          omega
        rw [hsm hy] at hexport
        exact exportSnapshot_storeOf (fun e he => h.shared.clean hy v e
          (List.mem_of_mem_take he)) hexport
      have hset : S.Settled { c.log with
          snapshot := ⟨c.node.lastApplied, c.log.getTerm c.node.lastApplied, data⟩
          entries := c.log.entries.drop (c.node.lastApplied - c.log.snapshot.index).toNat
          intent := none } c.sm (Γ.hist.log v) :=
        ⟨rfl, hrep.compact_rep ha hlt (by omega) hterm none, hquiet.applied.ge, not_lt.mp hbig,
          fun hy _ => by rw [ha, Int.toNat_natCast]; exact hdata hy⟩
      rw [← bind_pure (writeLog _ _)]
      exact gwp_writeLog hs.toSafe (hrep.compact ha hlt (by omega) hterm hpos (not_lt.mp hbig))
        fun env henv => gwp_pure ⟨(hs.setLog hset rfl le_rfl).env henv.ge, rfl, rfl, rfl, le_rfl⟩
  · exact gwp_pure ⟨h, Advances.refl Γ c⟩

/-! ## Batches -/

theorem DiskOK.applyBatch (hsh : S.Shared W) {log : AbstractLog} {sm : Store}
    (h : S.DiskOK W.hist v log sm) (hset : S.Settled log sm (W.hist.log v)) {a k : ℕ}
    (ha : sm.lastApplied = a) (hk : 0 < k) (hle : a + k ≤ (W.hist.log v).length)
    (hdec : Decided S.members W.hist (W.hist.term v) ((W.hist.log v).take (a + k))) :
    wp (RaftKV.applyBatch true (a + 1) ((((W.hist.log v).drop a).take k).map LogEntry.command))
      (fun replies sm' => replies.length = k ∧ sm'.lastApplied = a + k ∧
        S.DiskOK W.hist v log sm' ∧ S.Settled log sm' (W.hist.log v))
      (fun _ sm' => ¬S.served ∧ sm' = sm) sm := by
  set L := W.hist.log v
  have hlen : ((L.drop a).take k).length = k := by
    rw [List.length_take, List.length_drop]
    omega
  have hne : (L.drop a).take k ≠ [] := List.ne_nil_of_length_pos (hlen.symm ▸ hk)
  have hpa : (L.take a).length = a := by
    rw [List.length_take]
    omega
  have happend : L.take a ++ (L.drop a).take k = L.take (a + k) := List.take_add.symm
  have hmax : (L.length : ℤ) < int64Max := hsh.length_lt v
  -- what the databases are after the batch
  have key : ∀ sm' : Store, sm'.lastApplied = a + k → sm'.Marked →
      (S.clean → sm' = storeOf (L.take (a + k))) →
      S.DiskOK W.hist v log sm' ∧ S.Settled log sm' L := by
    intro sm' hsm' hmarked hclean
    have hset' : S.Settled log sm' L := { hset with
      applied := by
        have := hset.applied
        omega }
    exact ⟨⟨h.hard, hmarked, ⟨a + k, by exact_mod_cast hsm', hle, hdec, hclean⟩, .inl hset'⟩, hset'⟩
  -- commands that can be decoded are applied to what the entries before them left
  have hstore : S.clean → (∀ e ∈ (L.drop a).take k, (decodeCommand e.command).isSome) →
      ∃ replies, RaftKV.applyBatch true (a + 1) (((L.drop a).take k).map LogEntry.command) sm =
        .ok replies (storeOf (L.take (a + k))) := by
    intro hy hreadable
    obtain ⟨k', hk', -, -, hsm⟩ := h.applied
    obtain rfl : k' = a := by omega
    have hclean := hsh.clean hy v
    have hserved : ∀ e ∈ (L.drop k').take k, e.Served := by
      intro e he
      obtain ⟨c, hc⟩ := Option.isSome_iff_exists.mp (hreadable e he)
      exact ⟨c, hc, hclean e (List.mem_of_mem_drop (List.mem_of_mem_take he)) c hc⟩
    obtain ⟨replies, hrun, -⟩ := applyBatch_storeOf (P := L.take k')
      (fun e he => hclean e (List.mem_of_mem_take he)) hserved hne (by omega)
    rw [hpa, happend, ← hsm hy] at hrun
    exact ⟨replies, hrun⟩
  have hcases := applyBatch_cases h.marked (a + 1)
    (show ((L.drop a).take k).map LogEntry.command ≠ [] by simpa using hne)
  cases hrun : RaftKV.applyBatch true (a + 1) (((L.drop a).take k).map LogEntry.command) sm with
  | ok replies sm' =>
    obtain ⟨hlast, hreplies, hmarked, hreadable⟩ := wp_of_ok hcases hrun
    rw [List.length_map, hlen] at hlast hreplies
    have hlast' : sm'.lastApplied = a + k := by omega
    rw [wp_eq_of_ok hrun]
    refine ⟨hreplies, hlast', key sm' hlast' hmarked fun hy => ?_⟩
    obtain ⟨replies', hrun'⟩ := hstore hy fun e he => hreadable _ (List.mem_map_of_mem he)
    rw [hrun] at hrun'
    cases hrun'
    rfl
  | error text sm' =>
    have hsm := wp_of_error (E := fun _ sm' => sm' = sm) hcases hrun
    rw [wp, hrun]
    refine ⟨fun hy => ?_, hsm⟩
    obtain ⟨replies', hrun'⟩ := hstore hy.1 fun e he =>
      hsh.readable hy.2 v e (List.mem_of_mem_drop (List.mem_of_mem_take he))
    rw [hrun] at hrun'
    cases hrun'

theorem gwp_runStore {α β : Type} {Q : β → Ghost → Context → Prop} {m : StoreM α}
    {k : α → RaftM β} (hs : S.Safe v Γ c)
    (hm : wp m (fun a sm => ∀ env : Env, env.clock = c.env.clock →
        (S.logic v).gwp (k a) Q Γ { c with sm := sm, env := env })
      (fun text sm => sm = c.sm ∧ (S.served → text ∈ expected)) c.sm) :
    (S.logic v).gwp (runStore m >>= k) Q Γ c := by
  rw [runStore, bind_assoc]
  refine gwp_crashPoint hs fun env henv => gwp_bind ?_
  rw [gwp_get_bind]
  unfold wp at hm
  cases hrun : m c.sm with
  | ok a sm =>
    rw [hrun] at hm
    simp only
    exact gwp_bind (gwp_modify Γ ⟨World.Grows.refl v _, rfl, rfl⟩ (gwp_pure (hm env henv)))
  | error text sm =>
    rw [hrun] at hm
    obtain ⟨rfl, htext⟩ := hm
    simp only
    refine gwp_bind (gwp_modify Γ ⟨World.Grows.refl v _, rfl, rfl⟩ (gwp_fail ?_ htext))
    exact { hs.env henv.ge with }

/-! ## Completions -/

/-- A leader that has committed an entry of its term has committed beyond its start. -/
theorem Ready.beyond_start (h : S.Ready v Γ c) (hr : c.node.role = .leader)
    (hpos : 0 < c.node.commitIndex)
    (hterm : c.log.getTerm c.node.commitIndex = c.node.currentTerm) :
    ((Γ.hist.startLog (Γ.hist.term v)).length : ℤ) < c.node.commitIndex := by
  have hl := h.core.leader hr
  obtain ⟨a, k, -, hk, hak, hkle, hsa, -⟩ := h.core.progress
  rw [hk, h.core.settled.rep.getTerm_eq (by omega) hkle, h.core.term] at hterm
  obtain ⟨i, rfl⟩ : ∃ i, k = i + 1 := ⟨k - 1, by omega⟩
  rw [lastTerm_take_succ (by omega)] at hterm
  by_contra hge
  have hlt : i < (Γ.hist.startLog (Γ.hist.term v)).length := by omega
  have hstart := h.shared.inv.start_terms hl _ (List.getElem_mem hlt)
  have hpre := h.shared.inv.start_prefix hl
  have hown : Γ.hist.log v = Γ.hist.leaderLog (Γ.hist.term v) := h.shared.inv.own_log hl rfl
  have heq : (Γ.hist.startLog (Γ.hist.term v))[i] = (Γ.hist.log v)[i] := by
    simp only [hown]
    exact hpre.getElem hlt
  have hstart' : (Γ.hist.startLog (Γ.hist.term v))[i].term < Γ.hist.term v := hstart
  rw [heq, hterm] at hstart'
  exact lt_irrefl _ hstart'

theorem enableReads_keeps : S.Keeps v enableReads := by
  intro Γ c h
  rw [enableReads, gwp_getLog]
  refine gwp_modifyNode_last ?_
  split_ifs with hcond
  · obtain ⟨hr, -, hpos, hterm⟩ := hcond
    refine ⟨{ h with
      loose := { h.loose with
        core := { h.loose.core with serve := fun _ _ => h.beyond_start hr hpos hterm }
        lead := fun hr => { h.loose.lead hr with }
        reads := fun hr => { h.loose.reads hr with }
        promise := h.loose.promise }
      idle := fun hne => absurd hr hne }, rfl⟩
  · exact ⟨h, rfl⟩

theorem takePending_spec (h : S.Steady v Γ c) (first : ℤ) (count : ℕ) :
    (S.logic v).gwp (takePending first count) (fun finished Γ' c' => S.Steady v Γ' c' ∧
      Stays Γ c Γ' c' ∧ ∀ item ∈ finished, c.node.role = .leader ∧ item ∈ c.node.pending ∧
        first ≤ item.1 ∧ item.1 < first + count) Γ c := by
  rw [takePending, gwp_getNode]
  refine gwp_modifyNode (gwp_pure ⟨?_, rfl, fun item hmem => ?_⟩)
  · by_cases hr : c.node.role = .leader
    · exact h.setPending hr fun item hmem => List.mem_of_mem_filter hmem
    have hnil := (h.idle hr).pending
    exact { h with
      loose := { h.loose with
        core := { h.loose.core with }
        lead := fun hl => absurd hl hr
        proposals := fun hl => absurd hl hr
        reads := fun hl => absurd hl hr
        promise := h.loose.promise }
      idle := fun _ => { h.idle hr with pending := by simp [hnil] } }
  · obtain ⟨hmem', hrange⟩ := List.mem_filter.mp hmem
    have hr := h.leader_of (fun hi => hi.pending) (List.ne_nil_of_mem hmem')
    simp only [decide_eq_true_eq] at hrange
    exact ⟨hr, hmem', hrange⟩

/-- The completion of a batch that the KV database already has. -/
theorem finishApply_spec {first : ℤ} {count : ℕ} {results : List Bytes}
    (hfirst : first = c.node.lastApplied + 1) (hlen : results.length = count)
    (h : S.Steady v Γ { c with node := { c.node with
      lastApplied := c.node.lastApplied + count } }) :
    (S.logic v).gwp (finishApply first count results) (fun _ Γ' c' => S.Steady v Γ' c' ∧
      Stays Γ { c with node := { c.node with lastApplied := c.node.lastApplied + count } } Γ' c')
      Γ c := by
  rw [finishApply, gwp_getNode, if_neg (by push Not; exact ⟨hfirst, hlen⟩)]
  refine gwp_modifyNode (enableReads_keeps.seq h fun _ Γ₁ c₁ _ h₁ hst₁ => ?_)
  refine processPendingReads_keeps.seq h₁ fun _ Γ₂ c₂ _ h₂ hst₂ => ?_
  refine gwp_seq (takePending_spec h₂ first count) fun finished Γ₃ c₃ _ ⟨h₃, hst₃, hitems⟩ => ?_
  have hst := (hst₁.trans hst₂).trans hst₃
  have hcommit : c.node.lastApplied + count ≤ c.node.commitIndex := by
    obtain ⟨a, k, ha, hk, hak, -⟩ := h.core.progress
    have ha' : c.node.lastApplied + count = a := ha
    have hk' : c.node.commitIndex = k := hk
    omega
  refine gwp_forM (I := fun Γ' c' => S.Steady v Γ' c' ∧ Stays Γ
    { c with node := { c.node with lastApplied := c.node.lastApplied + count } } Γ' c')
    (fun item hmem Γ₄ c₄ ⟨h₄, hst₄⟩ => ?_) ⟨h₃, hst⟩
  obtain ⟨hr₂, hpending, hlow, hhigh⟩ := hitems item hmem
  have hst₂' := hst₁.trans hst₂
  have hr₄ : c₄.node.role = .leader := hst₄.role.trans (hst₂'.role.symm.trans hr₂)
  have hhist : Γ₄.hist = Γ₂.hist := hst₄.hist.trans hst₂'.hist.symm
  have hc₄ : c₄.node.commitIndex = c.node.commitIndex := hst₄.commitIndex
  have hrow := h₂.loose.proposals hr₂ item hpending
  refine gwp_mono (invokeProposal_ok h₄ hr₄ (by omega) ?_)
    fun _ _ _ _ hq => ⟨hq.1, hst₄.trans hq.2⟩
  rw [hhist]
  exact hrow

/-! ## The node and its worker -/

/-- The piece of the log after what is applied. -/
def batchOf (h : History) (v applied : ℤ) (k : ℕ) : List Bytes :=
  (((h.log v).drop applied.toNat).take k).map LogEntry.command

theorem length_batchOf {h : History} {a k : ℕ} (hle : a + k ≤ (h.log v).length) :
    (batchOf h v a k).length = k := by
  rw [batchOf, List.length_map, List.length_take, List.length_drop, Int.toNat_natCast]
  omega

theorem Ready.batch (h : S.Ready v Γ c) {k : ℕ} (hk : 0 < k)
    (hle : c.node.lastApplied + k ≤ c.node.commitIndex)
    (hsm : c.sm.lastApplied = c.node.lastApplied) :
    wp (RaftKV.applyBatch true (c.node.lastApplied + 1) (batchOf Γ.hist v c.node.lastApplied k))
      (fun replies sm' => replies.length = k ∧ sm'.lastApplied = c.node.lastApplied + k ∧
        S.DiskOK Γ.hist v c.log sm' ∧ S.Settled c.log sm' (Γ.hist.log v))
      (fun _ sm' => ¬S.served ∧ sm' = c.sm) c.sm := by
  obtain ⟨a, n, ha, hn, -, hnlen, -, hdec⟩ := h.core.progress
  have hbatch := h.disk.applyBatch (W := c.world Γ) h.shared h.core.settled (hsm.trans ha) hk
    (show a + k ≤ (Γ.hist.log v).length by omega)
    (hdec.initial (List.take_prefix_take_left (by omega)))
  rw [batchOf, ha]
  exact hbatch

theorem Ready.batch_event (h : S.Ready v Γ c) {k : ℕ}
    (hle : c.node.lastApplied + k ≤ c.node.commitIndex) :
    ∃ b P Q, P.length + 1 = c.node.lastApplied + 1 ∧
      Q.map LogEntry.command = batchOf Γ.hist v c.node.lastApplied k ∧
      Decided S.members Γ.hist b (P ++ Q) := by
  obtain ⟨a, n, ha, hn, -, hnlen, -, hdec⟩ := h.core.progress
  refine ⟨Γ.hist.term v, (Γ.hist.log v).take a, ((Γ.hist.log v).drop a).take k, ?_, ?_, ?_⟩
  · rw [ha, List.length_take, min_eq_left (by omega)]
  · rw [batchOf, ha, Int.toNat_natCast]
  · rw [← List.take_add]
    exact hdec.initial (List.take_prefix_take_left (by omega))

theorem LooseOK.setStore {n : Node} {log : AbstractLog} {sm sm' : Store} {exec exec' : Executor}
    {inc : ℕ} (h : S.LooseOK W v n log sm exec inc) {applied : ℤ} (hle : n.lastApplied ≤ applied)
    (hcommit : applied ≤ n.commitIndex) (hset : S.Settled log sm' (W.hist.log v))
    (hexec : Quiet applied exec' sm' ∨
      S.Busy n.applyInflight applied n.commitIndex exec' sm' (W.hist.log v)) :
    S.LooseOK W v { n with lastApplied := applied } log sm' exec' inc where
  core := { h.core with
    settled := hset
    progress := by
      obtain ⟨a, k, ha, hk, -, hklen, hsa, hdec⟩ := h.core.progress
      exact ⟨applied.toNat, k, by simp only; omega, hk, by omega, hklen,
        hsa.trans (by omega), hdec⟩
    exec := hexec }
  rpc := h.rpc
  lead hr := { h.lead hr with }
  proposals := h.proposals
  reads hr := { h.reads hr with }
  promise := h.promise

theorem Steady.setExec (h : S.Steady v Γ c) (exec : Executor) {applied : ℤ}
    (hle : c.node.lastApplied ≤ applied) (hcommit : applied ≤ c.node.commitIndex)
    (hexec : Quiet applied exec c.sm ∨
      S.Busy c.node.applyInflight applied c.node.commitIndex exec c.sm (Γ.hist.log v)) :
    S.Steady v Γ { c with exec := exec, node := { c.node with lastApplied := applied } } :=
  { h with
    loose := h.loose.setStore hle hcommit h.core.settled hexec
    idle := fun hr => { h.idle hr with } }

theorem Steady.applied (h : S.Steady v Γ c) (exec : Executor) {sm : Store} {applied first : ℤ}
    {commands results : List Bytes}
    (hevent : ∃ b P Q, P.length + 1 = first ∧ Q.map LogEntry.command = commands ∧
      Decided S.members Γ.hist b (P ++ Q))
    (hfirst : first = c.sm.lastApplied + 1)
    (hlast : sm.lastApplied = c.sm.lastApplied + commands.length)
    (hdisk : S.DiskOK Γ.hist v c.log sm) (hset : S.Settled c.log sm (Γ.hist.log v))
    (hle : c.node.lastApplied ≤ applied) (hcommit : applied ≤ c.node.commitIndex)
    (hexec : Quiet applied exec sm ∨
      S.Busy c.node.applyInflight applied c.node.commitIndex exec sm (Γ.hist.log v)) :
    S.Steady v Γ { c with
      sm := sm, exec := exec, trace := c.trace ++ [(v, .applied first commands results)]
      node := { c.node with lastApplied := applied } } where
  member := h.member
  id := h.id
  shared := h.shared.observe hevent fun _ _ he => by cases he
  disk := hdisk
  progress := by
    rw [appliedUpTo_append_own, h.progress]
    simp [Setting.progress, hfirst, hlast]
  fresh := h.fresh
  loose := (h.loose.mono (World.Grows.observe _) (World.Frames.observe (fun _ _ he => by cases he)
    fun _ _ _ _ he => by cases he) h.shared.inv rfl).setStore hle hcommit hset hexec
  idle hr := { h.idle hr with }

theorem Steady.setApplyInflight (h : S.Steady v Γ c)
    (hquiet : Quiet c.node.lastApplied c.exec c.sm) (inflight : Bool) :
    S.Steady v Γ { c with node := { c.node with applyInflight := inflight } } :=
  { h with
    loose := { h.loose with
      core := { h.loose.core with exec := .inl hquiet }
      lead := fun hr => { h.loose.lead hr with }
      reads := fun hr => { h.loose.reads hr with }
      promise := h.loose.promise }
    idle := fun hr => { h.idle hr with } }

theorem runWorker_spec (h : S.Steady v Γ c) :
    (S.logic v).gwp runWorker (fun _ Γ' c' => S.Steady v Γ' c' ∧ Advances Γ c Γ' c') Γ c := by
  rw [runWorker, gwp_get_bind]
  rcases hjob : c.exec.job with _ | job
  · exact gwp_pure ⟨h, Advances.refl Γ c⟩
  simp only
  refine gwp_crashPoint h.toSafe fun env henv => ?_
  have hs := h.env henv.ge
  rw [gwp_get_bind]
  rcases h.core.exec with hq | hb
  · rw [hq.job] at hjob
    cases hjob
  obtain ⟨k, hk, hle, ⟨hj, hdone, hsm⟩ | ⟨hnone, -⟩⟩ := hb.batch
  swap
  · rw [hnone] at hjob
    cases hjob
  obtain rfl : job = ⟨c.node.lastApplied + 1, batchOf Γ.hist v c.node.lastApplied k⟩ :=
    Option.some.inj (hjob.symm.trans hj)
  have hlen : (batchOf Γ.hist v c.node.lastApplied k).length = k := by
    obtain ⟨a, n, ha, hn, -, hnlen, -⟩ := h.core.progress
    rw [ha]
    exact length_batchOf (by omega)
  have hbatch := hs.toReady.batch hk hle hsm
  unfold wp at hbatch
  simp only [hlen]
  cases hrun : RaftKV.applyBatch true (c.node.lastApplied + 1)
      (batchOf Γ.hist v c.node.lastApplied k) c.sm with
  | ok results sm =>
    simp only [hrun] at hbatch
    obtain ⟨hres, hlast, hdisk, hset⟩ := hbatch
    refine gwp_bind (gwp_modify Γ ⟨World.Grows.refl v _, rfl, rfl⟩ ?_)
    rw [← bind_pure (RaftM.observe _)]
    refine gwp_observe h.id (gwp_pure ⟨hs.applied
      ⟨none, c.exec.completions ++ [⟨c.node.lastApplied + 1, k, .ok results⟩]⟩
      (h.toReady.batch_event hle) (by rw [hsm]) (by rw [hlen, hlast, hsm]) hdisk hset
      le_rfl h.toReady.applied_le
      (.inr ⟨hb.inflight, k, hk, hle, .inr ⟨rfl, .ok results, ?_, hres, hlast⟩⟩),
      rfl, rfl, rfl, le_rfl⟩)
    rw [hdone]
    rfl
  | error text sm =>
    simp only [hrun] at hbatch
    obtain ⟨hns, rfl⟩ := hbatch
    refine gwp_modify Γ ⟨World.Grows.refl v _, rfl, rfl⟩ ⟨hs.setExec
      ⟨none, c.exec.completions ++ [⟨c.node.lastApplied + 1, k, .error text⟩]⟩ le_rfl
      h.toReady.applied_le (.inr ⟨hb.inflight, k, hk, hle, .inr ⟨rfl, .error text, ?_, hns, hsm⟩⟩),
      rfl, rfl, rfl, le_rfl⟩
    rw [hdone]
    rfl

theorem submitApply_spec (h : S.Steady v Γ c) (hquiet : Quiet c.node.lastApplied c.exec c.sm)
    {k : ℕ} (hk : 0 < k) (hle : c.node.lastApplied + k ≤ c.node.commitIndex) : (S.logic v).gwp
      (submitApply (c.node.lastApplied + 1) (batchOf Γ.hist v c.node.lastApplied k))
      (fun _ Γ' c' => S.Steady v Γ' c' ∧ Advances Γ c Γ' c') Γ c := by
  rw [submitApply]
  refine gwp_modifyNode ?_
  have hs := h.setApplyInflight hquiet true
  rw [gwp_get_bind]
  simp only [hquiet.job, Option.isSome_none, Bool.false_eq_true, if_false]
  have hs' := hs.setExec
    { c.exec with job := some ⟨c.node.lastApplied + 1, batchOf Γ.hist v c.node.lastApplied k⟩ }
    le_rfl h.toReady.applied_le
    (.inr ⟨rfl, k, hk, hle, .inl ⟨rfl, hquiet.completions, hquiet.applied⟩⟩)
  refine gwp_bind (gwp_modify Γ ⟨World.Grows.refl v _, rfl, rfl⟩ ?_)
  rw [gwp_get_bind]
  refine gwp_bind (gwp_modify Γ ⟨World.Grows.refl v _, rfl, rfl⟩ ?_)
  have hs'' := hs'.env
    (show c.env.clock ≤ ({ c.env with works := c.env.works.tail } : Env).clock from le_rfl)
  refine gwp_ite (fun _ => runWorker_spec hs'') fun hwork => ?_
  exact gwp_pure ⟨hs'', rfl, rfl, rfl, le_rfl⟩

theorem applyBatch_spec (h : S.Steady v Γ c) (hquiet : Quiet c.node.lastApplied c.exec c.sm)
    {k : ℕ} (hk : 0 < k) (hle : c.node.lastApplied + k ≤ c.node.commitIndex) :
    (S.logic v).gwp
      (do
        let results ← applyToStore (c.node.lastApplied + 1) (batchOf Γ.hist v c.node.lastApplied k)
        finishApply (c.node.lastApplied + 1) (batchOf Γ.hist v c.node.lastApplied k).length results)
      (fun _ Γ' c' => S.Steady v Γ' c' ∧ Advances Γ c Γ' c' ∧
        c'.node.applyInflight = c.node.applyInflight) Γ c := by
  have hlen : (batchOf Γ.hist v c.node.lastApplied k).length = k := by
    obtain ⟨a, n, ha, hn, -, hnlen, -⟩ := h.core.progress
    rw [ha]
    exact length_batchOf (by omega)
  rw [applyToStore, bind_assoc, hlen]
  refine gwp_runStore h.toSafe (wp_mono (h.toReady.batch hk hle hquiet.applied) ?_ ?_)
  · rintro results sm ⟨hres, hlast, hdisk, hset⟩ env henv
    have hs : S.Steady v Γ { c with
        sm := sm, env := env
        trace := c.trace ++ [(v, .applied (c.node.lastApplied + 1)
          (batchOf Γ.hist v c.node.lastApplied k) results)]
        node := { c.node with lastApplied := c.node.lastApplied + k } } :=
      (h.env henv.ge).applied c.exec (h.toReady.batch_event hle) (by rw [hquiet.applied])
        (by rw [hlen, hlast, hquiet.applied]) hdisk hset (by simp) hle
        (.inl ⟨hquiet.job, hquiet.completions, hlast⟩)
    rw [bind_assoc]
    refine gwp_observe h.id ?_
    exact gwp_mono (finishApply_spec rfl hres hs) fun _ _ _ _ ⟨hq, hst⟩ =>
      ⟨hq, hst.advances, hst.applyInflight⟩
  · rintro text sm ⟨hns, rfl⟩
    exact ⟨rfl, fun hy => absurd hy hns⟩

theorem applyBatchesLoop_spec (turns : ℕ) : ∀ {Γ : Ghost} {c : Context}, S.Steady v Γ c →
    c.node.applyInflight = false → (S.logic v).gwp (applyBatchesLoop turns)
      (fun _ Γ' c' => S.Steady v Γ' c' ∧ Advances Γ c Γ' c') Γ c := by
  induction turns with
  | zero => exact fun h _ => maybeSnapshot_spec h
  | succ turns ih =>
    intro Γ c h hinflight
    rw [applyBatchesLoop, gwp_getNode, gwp_getLog]
    refine gwp_ite (fun hmore => ?_) fun hmore => ?_
    swap
    · exact maybeSnapshot_spec h
    obtain ⟨a, n, ha, hn, han, hnlen, hsa, -⟩ := h.core.progress
    obtain ⟨k, hcollect, hle, hpos⟩ := collectCommands_ok h.core.settled.rep (h.shared.small v)
      hnlen (kMaxBatchEntries + 1) a 0 0 hsa
    have hk : 0 < k := hpos (Nat.succ_pos _) rfl (by omega)
    have hbatch : (((Γ.hist.log v).drop a).take k).map LogEntry.command =
        batchOf Γ.hist v c.node.lastApplied k := by
      rw [batchOf, ha, Int.toNat_natCast]
    rw [← ha, ← hn, hbatch] at hcollect
    simp only [hcollect]
    have hle' : c.node.lastApplied + k ≤ c.node.commitIndex := by omega
    have hquiet := h.toReady.quiet hinflight
    refine gwp_ite (fun _ => submitApply_spec h hquiet hk hle') fun hasync => ?_
    refine gwp_seq (gwp_onFailure (applyBatch_spec h hquiet hk hle')
      fun _ _ hs => gwp_modifyNode_last { hs with }) fun _ Γ' c' _ ⟨hs, hadv, hflag⟩ => ?_
    exact gwp_mono (ih hs (hflag.trans hinflight)) fun _ _ _ _ hq => ⟨hq.1, hadv.trans hq.2⟩

theorem applyCommitted_spec (h : S.Steady v Γ c) :
    (S.logic v).gwp applyCommitted (fun _ Γ' c' => S.Steady v Γ' c' ∧ Advances Γ c Γ' c') Γ c := by
  rw [applyCommitted, gwp_getNode]
  cases hinflight : c.node.applyInflight with
  | true => exact gwp_pure ⟨h, Advances.refl Γ c⟩
  | false => exact applyBatchesLoop_spec _ h hinflight

theorem runCompletion_spec (h : S.Steady v Γ c) :
    (S.logic v).gwp runCompletion (fun _ Γ' c' => S.Steady v Γ' c' ∧ Advances Γ c Γ' c') Γ c := by
  rw [runCompletion, gwp_get_bind]
  rcases hdone : c.exec.completions with _ | ⟨completion, rest⟩
  · exact gwp_pure ⟨h, Advances.refl Γ c⟩
  simp only
  rcases h.core.exec with hq | hb
  · rw [hq.completions] at hdone
    cases hdone
  obtain ⟨k, hk, hle, ⟨-, hnil, -⟩ | ⟨hjob, r, hr, hout⟩⟩ := hb.batch
  · rw [hnil] at hdone
    cases hdone
  obtain ⟨rfl, rfl⟩ := List.cons.inj (hdone.symm.trans hr)
  refine gwp_bind (gwp_modify Γ ⟨World.Grows.refl v _, rfl, rfl⟩ ?_)
  cases r with
  | error text =>
    refine gwp_modifyNode (gwp_fail { h.toSafe with } fun hy => absurd hy hout.1)
  | ok results =>
    obtain ⟨hres, hlast⟩ := hout
    have hs := h.setExec { c.exec with completions := [] } (by omega) hle
      (.inl ⟨hjob, rfl, hlast⟩)
    refine gwp_seq (finishApply_spec rfl hres hs) fun _ Γ' c' _ ⟨hs', hst⟩ => ?_
    have hquiet : Quiet c'.node.lastApplied c'.exec c'.sm := by
      rw [hst.lastApplied, hst.exec, hst.sm]
      exact ⟨hjob, rfl, hlast⟩
    refine gwp_modifyNode ?_
    exact gwp_mono (applyCommitted_spec (hs'.setApplyInflight hquiet false))
      fun _ _ _ _ hq => ⟨hq.1, hst.advances.trans hq.2⟩

end Setting

end RaftKV
