import RaftKV.Refinement.Relation

/-!
# Growth of the world

What a method of node `v` does to the world : history grows, messages and events of `v` are
added, the clock does not go back (`World.Grows`). What messages and events tell stays true
(`MsgOK.mono`, `EventOK.mono`). What is known of a node stays true as long as the world tells
the same of it (`World.Frames`, `DiskOK.mono`, `LooseOK.mono`), and of the nodes other than `v`
it does (`World.Grows.frames`).
-/

set_option linter.unusedSectionVars false

namespace RaftKV

open Consensus (lastTerm Decided IsQuorum)

/-- The world after steps of node `v`. -/
structure World.Grows (v : ℤ) (W W' : World) : Prop where
  hist : Consensus.Le v W.hist W'.hist
  alloc_le : ∀ w inc, W.ghost.alloc w inc ≤ W'.ghost.alloc w inc
  floor_eq : ∀ w inc k, k ≤ W.ghost.alloc w inc → W'.ghost.floor w inc k = W.ghost.floor w inc k
  alloc_other : ∀ w, w ≠ v → W'.ghost.alloc w = W.ghost.alloc w
  net : ∃ new, W'.net = W.net ++ new ∧ ∀ e ∈ new, e.src = v
  trace : ∃ new, W'.trace = W.trace ++ new ∧ ∀ x ∈ new, x.1 = v
  clock_le : W.clock ≤ W'.clock

namespace World.Grows

variable {v : ℤ} {W W' W'' : World}

theorem refl (v : ℤ) (W : World) : W.Grows v W where
  hist := Consensus.Le.refl v _
  alloc_le _ _ := le_rfl
  floor_eq _ _ _ _ := rfl
  alloc_other _ _ := rfl
  net := ⟨[], by simp, by simp⟩
  trace := ⟨[], by simp, by simp⟩
  clock_le := le_rfl

theorem trans (h : W.Grows v W') (h' : W'.Grows v W'') : W.Grows v W'' where
  hist := h.hist.trans h'.hist
  alloc_le w inc := (h.alloc_le w inc).trans (h'.alloc_le w inc)
  floor_eq w inc k hk :=
    (h'.floor_eq w inc k (hk.trans (h.alloc_le w inc))).trans (h.floor_eq w inc k hk)
  alloc_other w hw := (h'.alloc_other w hw).trans (h.alloc_other w hw)
  net := by
    obtain ⟨new, h₁, h₂⟩ := h.net
    obtain ⟨new', h₁', h₂'⟩ := h'.net
    refine ⟨new ++ new', by rw [h₁', h₁, List.append_assoc], fun e he => ?_⟩
    rcases List.mem_append.mp he with he | he
    · exact h₂ e he
    · exact h₂' e he
  trace := by
    obtain ⟨new, h₁, h₂⟩ := h.trace
    obtain ⟨new', h₁', h₂'⟩ := h'.trace
    refine ⟨new ++ new', by rw [h₁', h₁, List.append_assoc], fun e he => ?_⟩
    rcases List.mem_append.mp he with he | he
    · exact h₂ e he
    · exact h₂' e he
  clock_le := h.clock_le.trans h'.clock_le

variable (hg : W.Grows v W')
include hg

theorem mem_net {e : Envelope} (he : e ∈ W.net) : e ∈ W'.net := by
  obtain ⟨new, hnew, -⟩ := hg.net
  rw [hnew]
  exact List.mem_append_left _ he

variable {x : ℤ × Event}

theorem mem_trace (hx : x ∈ W.trace) : x ∈ W'.trace := by
  obtain ⟨new, hnew, -⟩ := hg.trace
  rw [hnew]
  exact List.mem_append_left _ hx

/-- The events of the other nodes were there before. -/
theorem mem_trace_other (hx : x ∈ W'.trace) (hne : x.1 ≠ v) : x ∈ W.trace := by
  obtain ⟨new, hnew, hv⟩ := hg.trace
  rw [hnew] at hx
  rcases List.mem_append.mp hx with hx | hx
  · exact hx
  · exact absurd (hv x hx) hne

/-- The messages of the other nodes were there before. -/
theorem mem_net_other {e : Envelope} (he : e ∈ W'.net) (hne : e.src ≠ v) : e ∈ W.net := by
  obtain ⟨new, hnew, hv⟩ := hg.net
  rw [hnew] at he
  rcases List.mem_append.mp he with he | he
  · exact he
  · exact absurd (hv e he) hne

theorem getElem?_trace {j : ℕ} (hx : W.trace[j]? = some x) : W'.trace[j]? = some x := by
  obtain ⟨new, hnew, -⟩ := hg.trace
  rw [hnew, List.getElem?_append_left (List.getElem?_eq_some_iff.mp hx).1]
  exact hx

/-- Events before a recorded one are the same. -/
theorem getElem?_trace_lt {j k : ℕ} {y : ℤ × Event} (hk : W.trace[k]? = some y) (hjk : j < k)
    (hx : W'.trace[j]? = some x) : W.trace[j]? = some x := by
  obtain ⟨new, hnew, -⟩ := hg.trace
  have hlt := (List.getElem?_eq_some_iff.mp hk).1
  rwa [hnew, List.getElem?_append_left (hjk.trans hlt)] at hx

end World.Grows

namespace Setting

variable {S : Setting} {v : ℤ} {W W' : World}

/-! ## Messages and events -/

section Mono

variable (hg : W.Grows v W') (hinv : Consensus.Inv S.members S.Good W.hist)
include hg hinv

variable {src dst : ℤ}

theorem EntriesOK.mono {m : AppendEntries} (h : S.EntriesOK W.hist src m) :
    S.EntriesOK W'.hist src m := by
  obtain ⟨hl, ⟨pre, h₁, h₂, h₃⟩, p, h₄, h₅, h₆⟩ := h
  obtain ⟨hl', -, hpre⟩ := hg.hist.leader hl
  exact ⟨hl', ⟨pre, h₁, h₂, h₃.trans hpre⟩, p, h₄, h₅.trans hpre, h₆.step hg.hist hinv⟩

theorem ChunkOK.mono {m : InstallSnapshot} (h : S.ChunkOK W.hist src m) :
    S.ChunkOK W'.hist src m := by
  obtain ⟨hl, P, h₁, h₂, h₃, h₄, h₅⟩ := h
  obtain ⟨hl', -, hpre⟩ := hg.hist.leader hl
  exact ⟨hl', P, h₁, h₂, h₃.trans hpre, h₄.step hg.hist hinv, h₅⟩

omit hinv in
theorem VoteOK.mono {m : RequestVote} (h : VoteOK W.hist src m) : VoteOK W'.hist src m := by
  intro hp
  obtain ⟨hb, h₁, h₂⟩ := h hp
  obtain ⟨hb', hlog⟩ := hg.hist.ballot hb
  exact ⟨hb', by rw [hlog, h₁], by rw [hlog, h₂]⟩

omit hinv in
theorem VoteReplyOK.mono {m : RequestVoteResponse}
    (h : VoteReplyOK W.hist src dst m) : VoteReplyOK W'.hist src dst m :=
  ⟨h.1.trans (hg.hist.term_le src), fun h₁ h₂ => (hg.hist.ballot (h.2 h₁ h₂)).1⟩

omit hinv in
theorem Heard.mono {term : ℤ} {rpcId : ℕ} (h : Heard W.net W.trace src dst term rpcId) :
    Heard W'.net W'.trace src dst term rpcId := by
  obtain ⟨time, h₁, e, he, h₂⟩ := h
  exact ⟨time, hg.mem_trace h₁, e, hg.mem_net he, h₂⟩

omit hinv in
theorem EntriesReplyOK.mono {inc : ℕ} {m : AppendEntriesResponse}
    (h : S.EntriesReplyOK W src dst inc m) : S.EntriesReplyOK W' src dst inc m := by
  obtain ⟨h₁, h₂, h₃, h₄⟩ := h
  refine ⟨h₁.trans (hg.hist.term_le src), h₂.trans (hg.alloc_le dst inc), ?_, fun hs => ?_⟩
  · rw [hg.floor_eq dst inc _ h₂]
    exact h₃
  · obtain ⟨⟨k, hk, hack⟩, hheard⟩ := h₄ hs
    exact ⟨⟨k, hk, hack.trans (hg.hist.ack_le _ _)⟩, fun hy => (hheard hy).mono hg⟩

omit hinv in
theorem ChunkReplyOK.mono {m : InstallSnapshotResponse}
    (h : ChunkReplyOK W src dst m) : ChunkReplyOK W' src dst m := by
  obtain ⟨h₁, h₂⟩ := h
  refine ⟨h₁.trans (hg.hist.term_le src), fun hc => ?_⟩
  obtain ⟨e, he, hsrc, m', hm, ht, hr, k, hk, hack⟩ := h₂ hc
  exact ⟨e, hg.mem_net he, hsrc, m', hm, ht, hr, k, hk, hack.trans (hg.hist.ack_le _ _)⟩

theorem MsgOK.mono {e : Envelope} (h : S.MsgOK W e) : S.MsgOK W' e := by
  refine ⟨h.1, ?_⟩
  replace h := h.2
  cases hm : e.message <;> simp only [hm] at h ⊢
  case requestVote m => exact VoteOK.mono hg h
  case requestVoteResponse m => exact VoteReplyOK.mono hg h
  case appendEntries m => exact ⟨h.1.mono hg hinv, h.2.trans (hg.alloc_le _ _)⟩
  case appendEntriesResponse m => exact h.mono hg
  case installSnapshot m => exact ⟨h.1.mono hg hinv, h.2.trans (hg.alloc_le _ _)⟩
  case installSnapshotResponse m => exact h.mono hg

omit hinv in
theorem ReadSafe.mono {call : ℕ} {x : ℤ × Event} {readIndex : ℤ} (hx : W.trace[call]? = some x)
    (h : ReadSafe W.trace call readIndex) : ReadSafe W'.trace call readIndex :=
  fun j hj w origin index command term reply he =>
    h j hj w origin index command term reply (hg.getElem?_trace_lt hx hj he)

theorem EventOK.mono {j : ℕ} {w : ℤ} {e : Event} (h : S.EventOK W j w e) : S.EventOK W' j w e := by
  cases e with
  | leader term => exact (hg.hist.leader h).1
  | proposal call index command term ok reply =>
    intro hok
    obtain ⟨hl, P, e, h₁, h₂, h₃⟩ := h hok
    exact ⟨(hg.hist.leader hl).1, P, e, h₁, h₂.step hg.hist hinv, h₃⟩
  | applied first commands results =>
    obtain ⟨b, P, Q, h₁, h₂, h₃⟩ := h
    exact ⟨b, P, Q, h₁, h₂, h₃.step hg.hist hinv⟩
  | readDone call ok readIndex lastApplied error =>
    intro hok
    obtain ⟨h₁, h₂, lease, h₃, h₄⟩ := h hok
    exact ⟨h₁, h₂, lease, hg.getElem?_trace h₃, fun ht => ReadSafe.mono hg h₃ (h₄ ht)⟩
  | failed text => exact h
  | readCalled lease => exact h
  | exported index busy => exact h
  | installed index busy => exact h
  | booted | accepted | proposed | roundStarted | probeCounted => trivial

end Mono

end Setting

/-! ## What the world tells of a node -/

/-- The world tells the same of node `w`, whose commit index is `commit` : new messages of `w`
are not requests of its term, and new acknowledgements are of committed proposals. -/
structure World.Frames (w commit : ℤ) (W W' : World) : Prop where
  term : W'.hist.term w = W.hist.term w
  log : W'.hist.log w = W.hist.log w
  ballot : W'.hist.ballot w = W.hist.ballot w
  leader : W'.hist.leader (W.hist.term w) = some w → W.hist.leader (W.hist.term w) = some w
  alloc : W'.ghost.alloc w = W.ghost.alloc w
  requests : ∀ e ∈ W'.net, e.src = w → e ∈ W.net ∨
    ∀ k, Setting.requestId e.message ≠ some (W.hist.term w, k)
  accepted : ∀ term time, (w, Event.accepted term time) ∈ W'.trace →
    (w, Event.accepted term time) ∈ W.trace
  acknowledged : ∀ origin index command reply,
    (w, Event.proposal origin index command (W.hist.term w) true reply) ∈ W'.trace →
    (w, Event.proposal origin index command (W.hist.term w) true reply) ∈ W.trace ∨ index ≤ commit

/-- The steps of `v` tell nothing new of another node. -/
theorem World.Grows.frames {v w : ℤ} {W W' : World} (hg : W.Grows v W') (hw : w ≠ v)
    (commit : ℤ) : W.Frames w commit W' where
  term := (hg.hist.other hw).1
  log := (hg.hist.other hw).2.1
  ballot := (hg.hist.other hw).2.2.1
  leader hl := hg.hist.other_leader hl hw
  alloc := hg.alloc_other w hw
  requests _ he hsrc := .inl (hg.mem_net_other he (hsrc ▸ hw))
  accepted _ _ he := hg.mem_trace_other he hw
  acknowledged _ _ _ _ he := .inl (hg.mem_trace_other he hw)

namespace Setting

variable {S : Setting} {v w commit : ℤ} {W W' : World}

section Frame

variable (hg : W.Grows v W') (hf : W.Frames w commit W')
  (hinv : Consensus.Inv S.members S.Good W.hist)
include hg

theorem Succeeded.mono {term : ℤ} (h : Succeeded W.hist term) : Succeeded W'.hist term := by
  obtain ⟨t, h₁, h₂⟩ := h
  exact ⟨t, h₁, hg.hist.leader_isSome h₂⟩

theorem Moved.mono {term : ℤ} (h : Moved W.hist term) : Moved W'.hist term := by
  obtain ⟨c, h₁, h₂⟩ := h
  exact ⟨c, (hg.hist.leader h₁).1, h₂.trans_le (hg.hist.term_le c)⟩

theorem RequestOK.mono {floor : ℤ → ℤ} {q : ReadIndexRequest}
    (ht : W'.hist.term w = W.hist.term w) (h : S.RequestOK W w floor q) :
    S.RequestOK W' w floor q := by
  refine ⟨hg.getElem?_trace h.1, fun hl j hj u origin index command term reply he => ?_⟩
  rw [ht]
  exact h.2 hl j hj u origin index command term reply (hg.getElem?_trace_lt h.1 hj he)

omit hg in
theorem RequestOK.floor_mono {floor floor' : ℤ → ℤ} {q : ReadIndexRequest}
    (h : S.RequestOK W w floor q) (hle : ∀ u, floor u ≤ floor' u) : S.RequestOK W w floor' q := by
  refine ⟨h.1, fun hl j hj u origin index command term reply he => ?_⟩
  rcases h.2 hl j hj u origin index command term reply he with h₃ | ⟨h₃, Q, h₄, h₅⟩
  · exact .inl h₃
  · exact .inr ⟨h₃, Q, h₄, fun u hu => (h₅ u hu).trans (hle u)⟩

theorem WaitingOK.mono {q : ReadIndexRequest} (h : S.WaitingOK W w q) : S.WaitingOK W' w q := by
  obtain ⟨lease, h₁, h₂⟩ := h
  exact ⟨lease, hg.getElem?_trace h₁, fun ht => ReadSafe.mono hg h₁ (h₂ ht)⟩

variable {inc : ℕ} {n : Node}

theorem RoundOK.mono {r : HeartbeatRound} (ht : W'.hist.term w = W.hist.term w)
    (h : S.RoundOK W w inc r) : S.RoundOK W' w inc r := by
  obtain ⟨floor, h₁, h₂, h₃, h₄, h₅⟩ := h
  refine ⟨floor, fun u => (h₁ u).trans (hg.hist.term_le u), fun q hq => (h₂ q hq).mono hg ht, h₃,
    by rw [ht]; exact h₄, fun u k hk => ?_⟩
  obtain ⟨h₆, h₇⟩ := h₅ u k hk
  rw [hg.floor_eq w inc k h₆]
  exact ⟨h₆.trans (hg.alloc_le w inc), h₇⟩

theorem ReadsOK.mono (ht : W'.hist.term w = W.hist.term w)
    (h : S.ReadsOK W w n inc) : S.ReadsOK W' w n inc where
  rounds r hr := (h.rounds r hr).mono hg ht
  unsent q hq := ((h.unsent q hq).mono hg ht).floor_mono hg.hist.term_le
  pending q hq := (h.pending q hq).mono hg

theorem PromiseOK.mono (hacc : ∀ term time, (w, Event.accepted term time) ∈ W'.trace →
    (w, Event.accepted term time) ∈ W.trace) (h : PromiseOK W w n) : PromiseOK W' w n := by
  intro term time he
  rcases h term time (hacc term time he) with h₁ | h₁ | h₁ | ⟨h₁, h₂, h₃, h₄, h₅⟩
  · exact .inl (h₁.trans hg.clock_le)
  · exact .inr (.inl (Succeeded.mono hg h₁))
  · exact .inr (.inr (.inl (Moved.mono hg h₁)))
  · exact .inr (.inr (.inr ⟨h₁, h₂, h₃, (hg.hist.leader h₄).1, h₅⟩))

include hf hinv

theorem DiskOK.mono {log : AbstractLog} {sm : Store} (h : S.DiskOK W.hist w log sm) :
    S.DiskOK W'.hist w log sm := by
  refine ⟨?_, h.marked, ?_, ?_⟩
  · rw [hf.term, hf.ballot]
    exact h.hard
  · obtain ⟨k, h₁, h₂, h₃, h₄⟩ := h.applied
    rw [hf.log, hf.term]
    exact ⟨k, h₁, h₂, h₃.step hg.hist hinv, h₄⟩
  rw [hf.log]
  rcases h.body with hs | ⟨s, hs⟩
  · exact .inl hs
  refine .inr ⟨s, ?_⟩
  obtain ⟨k, h₁, h₂, h₃, h₄, h₅⟩ := hs.index
  exact
    { hs with
      index := ⟨k, h₁, h₂, by rw [hf.log]; exact h₃, by rw [hf.log]; exact h₄, by
        rw [hf.log, hf.term]; exact h₅.step hg.hist hinv⟩
      data := by rw [hf.log]; exact hs.data
      old_term := by rw [hf.term]; exact hs.old_term
      install := by rw [hf.log]; exact hs.install }

theorem CoreOK.mono {log : AbstractLog} {sm : Store} {exec : Executor}
    (h : S.CoreOK W.hist w n log sm exec) : S.CoreOK W'.hist w n log sm exec := by
  refine
    { id := h.id
      peers := h.peers
      term := by rw [hf.term]; exact h.term
      vote := by rw [hf.term, hf.ballot]; exact h.vote
      settled := by rw [hf.log]; exact h.settled
      progress := ?_
      exec := by rw [hf.log]; exact h.exec
      active := h.active
      receive := ?_
      candidate := ?_
      leader := ?_
      serve := ?_
      lease := h.lease }
  · obtain ⟨a, k, h₁, h₂, h₃, h₄, h₅, h₆⟩ := h.progress
    rw [hf.log, hf.term]
    exact ⟨a, k, h₁, h₂, h₃, h₄, h₅, h₆.step hg.hist hinv⟩
  · intro hr
    obtain ⟨P, h₁, h₂, h₃, h₄⟩ := h.receive hr
    rw [hf.term]
    exact ⟨P, h₁, h₂, h₃.step hg.hist hinv, h₄⟩
  · intro hr
    obtain ⟨h₁, h₂, h₃, h₄⟩ := h.candidate hr
    rw [hf.term, hf.log]
    refine ⟨(hg.hist.ballot h₁).1, fun hl => h₂ (hf.leader hl), ?_, fun u hu =>
      ⟨(h₄ u hu).1, (hg.hist.ballot (h₄ u hu).2).1⟩⟩
    rcases h₃ with h₃ | h₃
    · exact .inl ((hg.hist.ballot h₁).2.trans h₃)
    · exact .inr (hg.hist.leader_isSome h₃)
  · intro hr
    rw [hf.term]
    exact (hg.hist.leader (h.leader hr)).1
  · intro hr hs
    rw [hf.term, (hg.hist.leader (h.leader hr)).2.1]
    exact h.serve hr hs

theorem FlightOK.mono {seq : ℕ} {u : ℤ} {f : Inflight}
    (h : S.FlightOK W.hist w inc W.net seq u f) : S.FlightOK W'.hist w inc W'.net seq u f := by
  refine ⟨fun hid => ?_, fun hs => ?_, fun hy hid ht e he hsrc m hm hterm hk => ?_⟩
  · obtain ⟨h₁, e, he, h₂⟩ := h.sent hid
    rw [hf.term]
    exact ⟨h₁, e, hg.mem_net he, h₂⟩
  · obtain ⟨h₁, h₂, P, h₃, h₄, h₅, h₆, h₇, h₈⟩ := h.snapshot hs
    refine ⟨h₁, h₂, P, h₃, h₄, h₅, hf.log ▸ h₆, ?_, h₈⟩
    rw [hf.term]
    exact h₇.step hg.hist hinv
  rw [hf.term] at hterm
  rcases hf.requests e he hsrc with hold | hnew
  · exact h.lease hy hid ht e hold hsrc m hm hterm hk
  · exact absurd (by simp [requestId, hm, hterm]) (hnew m.rpcId)

theorem LeadOK.mono (hcommit : commit = n.commitIndex)
    (h : S.LeadOK W w n inc) : S.LeadOK W' w n inc := by
  refine
    { matched := fun u hu => ?_
      next := by rw [hf.log]; exact h.next
      flights := fun u => (h.flights u).mono hg hf hinv
      requests := fun e he hsrc k hk => ?_
      unique := fun e he e' he' hsrc hsrc' k hk hk' => ?_
      acknowledged := fun origin index command reply he => ?_
      confirmed := fun hy u time ht => ?_ }
  · obtain ⟨k, h₁, h₂⟩ := h.matched u hu
    rw [hf.term]
    exact ⟨k, h₁, h₂.trans (hg.hist.ack_le _ _)⟩
  · rw [hf.term] at hk
    rcases hf.requests e he hsrc with hold | hnew
    · exact h.requests e hold hsrc k hk
    · exact absurd hk (hnew k)
  · rw [hf.term] at hk hk'
    rcases hf.requests e he hsrc with hold | hnew
    · rcases hf.requests e' he' hsrc' with hold' | hnew
      · exact h.unique e hold e' hold' hsrc hsrc' k hk hk'
      · exact absurd hk' (hnew k)
    · exact absurd hk (hnew k)
  · rw [hf.term] at he
    rcases hf.acknowledged origin index command reply he with hold | hle
    · exact h.acknowledged origin index command reply hold
    · exact hcommit ▸ hle
  · obtain ⟨heard, h₁, h₂⟩ := h.confirmed hy u time ht
    rw [hf.term]
    exact ⟨heard, hg.mem_trace h₁, h₂⟩

theorem LooseOK.mono {log : AbstractLog} {sm : Store} {exec : Executor}
    (hcommit : commit = n.commitIndex) (h : S.LooseOK W w n log sm exec inc) :
    S.LooseOK W' w n log sm exec inc where
  core := h.core.mono hg hf hinv
  rpc := by rw [hf.alloc]; exact h.rpc
  lead hr := (h.lead hr).mono hg hf hinv hcommit
  proposals hr := by
    intro item hitem
    have := h.proposals hr item hitem
    rwa [RowOK, hf.log, hf.term]
  reads hr := (h.reads hr).mono hg hf.term
  promise hy hr := PromiseOK.mono hg hf.accepted (h.promise hy hr)

end Frame

end Setting

end RaftKV
