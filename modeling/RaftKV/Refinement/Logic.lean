import RaftKV.GhostWp
import RaftKV.Refinement.Worlds

/-!
# Reasoning about methods

The ghost of a method is the state of the protocol with the RPC ids given out (`Ghost`), and
it moves with the context as the world grows (`Setting.logic`). `Safe` is what holds at every
instant, so also at a crash and when an exception leaves the method. `Ready` adds what holds
of the process between the parts of a method, and `Steady` what holds between methods. `Keeps`
says that a part of a method leads from `Steady` to `Steady` without a step of the protocol.
-/

namespace RaftKV

open RaftM GhostLogic

namespace Setting

variable (S : Setting) (v : ℤ)

/-- What holds at every instant of a method of node `v`. -/
structure Safe (Γ : Ghost) (c : Context) : Prop where
  member : v ∈ S.members
  id : c.node.nodeId = v
  shared : S.Shared (c.world Γ)
  disk : S.DiskOK Γ.hist v c.log c.sm
  progress : appliedUpTo v c.trace = some c.sm.lastApplied
  /-- Later incarnations have given out no ids yet. -/
  fresh : ∀ inc, c.incarnation < inc → Γ.alloc v inc = 0

/-- The world of a method grows, and the method stays in its incarnation. -/
structure Extends (Γ : Ghost) (c : Context) (Γ' : Ghost) (c' : Context) : Prop where
  grows : (c.world Γ).Grows v (c'.world Γ')
  incarnation : c'.incarnation = c.incarnation
  replyTo : c'.replyTo = c.replyTo

/-- The logic of the methods of node `v`. -/
def logic : GhostLogic Halt Context Ghost where
  rel := Extends v
  refl _ _ := ⟨World.Grows.refl v _, rfl, rfl⟩
  trans h h' := ⟨h.grows.trans h'.grows, h'.incarnation.trans h.incarnation,
    h'.replyTo.trans h.replyTo⟩
  thrown e Γ c := S.Safe v Γ c ∧ ∀ text, e = .failure text → S.served → text ∈ expected

/-- What holds between the parts of a method. -/
structure Ready (Γ : Ghost) (c : Context) : Prop extends S.Safe v Γ c where
  loose : S.LooseOK (c.world Γ) v c.node c.log c.sm c.exec c.incarnation

variable {S v} in
theorem Ready.core {Γ : Ghost} {c : Context} (h : S.Ready v Γ c) :
    S.CoreOK Γ.hist v c.node c.log c.sm c.exec :=
  h.loose.core

/-- What holds between methods. -/
structure Steady (Γ : Ghost) (c : Context) : Prop extends S.Ready v Γ c where
  idle : c.node.role ≠ .leader → Idle c.node

/-- What a part of a method that only reads and sends leaves alone. -/
structure View where
  hist : History
  log : AbstractLog
  sm : Store
  exec : Executor
  role : Role
  running : Bool
  commitIndex : ℤ
  lastApplied : ℤ
  applyInflight : Bool

def view (Γ : Ghost) (c : Context) : View :=
  ⟨Γ.hist, c.log, c.sm, c.exec, c.node.role, c.node.running, c.node.commitIndex,
    c.node.lastApplied, c.node.applyInflight⟩

/-- The protocol, the databases, the role and the progress are as before. -/
def Stays (Γ : Ghost) (c : Context) (Γ' : Ghost) (c' : Context) : Prop :=
  view Γ' c' = view Γ c

section Stays

variable {Γ Γ' Γ'' : Ghost} {c c' c'' : Context}

theorem Stays.refl (Γ : Ghost) (c : Context) : Stays Γ c Γ c := rfl

section

variable (h : Stays Γ c Γ' c')
include h

theorem Stays.trans (h' : Stays Γ' c' Γ'' c'') : Stays Γ c Γ'' c'' :=
  Eq.trans h' h

theorem Stays.hist : Γ'.hist = Γ.hist := congrArg View.hist h

theorem Stays.sm : c'.sm = c.sm := congrArg View.sm h

theorem Stays.exec : c'.exec = c.exec := congrArg View.exec h

theorem Stays.role : c'.node.role = c.node.role := congrArg View.role h

theorem Stays.running : c'.node.running = c.node.running :=
  congrArg View.running h

theorem Stays.commitIndex : c'.node.commitIndex = c.node.commitIndex :=
  congrArg View.commitIndex h

theorem Stays.lastApplied : c'.node.lastApplied = c.node.lastApplied :=
  congrArg View.lastApplied h

theorem Stays.applyInflight : c'.node.applyInflight = c.node.applyInflight :=
  congrArg View.applyInflight h

end

end Stays

/-- A part of a method that keeps what holds between methods. -/
def Keeps {α : Type} (m : RaftM α) : Prop :=
  ∀ Γ c, S.Steady v Γ c →
    (S.logic v).gwp m (fun _ Γ' c' => S.Steady v Γ' c' ∧ Stays Γ c Γ' c') Γ c

/-- The same for a leader. -/
def KeepsLead {α : Type} (m : RaftM α) : Prop :=
  ∀ Γ c, S.Steady v Γ c → c.node.role = .leader →
    (S.logic v).gwp m (fun _ Γ' c' => S.Steady v Γ' c' ∧ Stays Γ c Γ' c') Γ c

variable {S v} {α β : Type} {Γ : Ghost} {c : Context}

theorem Keeps.lead {m : RaftM α} (h : S.Keeps v m) : S.KeepsLead v m :=
  fun Γ c hs _ => h Γ c hs

theorem Keeps.pure (a : α) : S.Keeps v (pure a) :=
  fun Γ c hs => gwp_pure ⟨hs, Stays.refl Γ c⟩

variable {f : β → RaftM α} {m : RaftM β} {e : Event} {inc : ℕ} {message : Message} {peer : ℤ}

theorem Keeps.bind (hm : S.Keeps v m) (hf : ∀ b, S.Keeps v (f b)) :
    S.Keeps v (m >>= f) := fun Γ c hs =>
  gwp_seq (hm Γ c hs) fun b Γ' c' _ ⟨hs', hst⟩ =>
    gwp_mono (hf b Γ' c' hs') fun _ _ _ _ ⟨hs'', hst'⟩ => ⟨hs'', hst.trans hst'⟩

theorem KeepsLead.bind (hm : S.KeepsLead v m)
    (hf : ∀ b, S.KeepsLead v (f b)) : S.KeepsLead v (m >>= f) := fun Γ c hs hr =>
  gwp_seq (hm Γ c hs hr) fun b Γ' c' _ ⟨hs', hst⟩ =>
    gwp_mono (hf b Γ' c' hs' (hst.role.trans hr)) fun _ _ _ _ ⟨hs'', hst'⟩ =>
      ⟨hs'', hst.trans hst'⟩

theorem KeepsLead.forM {δ : Type} {f : δ → RaftM PUnit} {l : List δ}
    (hf : ∀ x ∈ l, S.KeepsLead v (f x)) : S.KeepsLead v (forM l f) := by
  intro Γ c hs hr
  refine gwp_forM (I := fun Γ' c' => S.Steady v Γ' c' ∧ Stays Γ c Γ' c')
    (fun x hx Γ' c' ⟨hs', hst⟩ => ?_) ⟨hs, Stays.refl Γ c⟩
  exact gwp_mono (hf x hx Γ' c' hs' (hst.role.trans hr)) fun _ _ _ _ ⟨hs'', hst'⟩ =>
    ⟨hs'', hst.trans hst'⟩

theorem Keeps.seq {Q : α → Ghost → Context → Prop} (hm : S.Keeps v m) (hs : S.Steady v Γ c)
    (hf : ∀ b Γ' c', Extends v Γ c Γ' c' → S.Steady v Γ' c' → Stays Γ c Γ' c' →
      (S.logic v).gwp (f b) Q Γ' c') : (S.logic v).gwp (m >>= f) Q Γ c :=
  gwp_seq (hm Γ c hs) fun b Γ' c' hr ⟨hs', hst⟩ => hf b Γ' c' hr hs' hst

theorem KeepsLead.seq {Q : α → Ghost → Context → Prop}
    (hm : S.KeepsLead v m) (hs : S.Steady v Γ c) (hr : c.node.role = .leader)
    (hf : ∀ b Γ' c', Extends v Γ c Γ' c' → S.Steady v Γ' c' → Stays Γ c Γ' c' →
      (S.logic v).gwp (f b) Q Γ' c') : (S.logic v).gwp (m >>= f) Q Γ c :=
  gwp_seq (hm Γ c hs hr) fun b Γ' c' hr ⟨hs', hst⟩ => hf b Γ' c' hr hs' hst

/-! ## Primitives -/

section Primitives

variable {Q : α → Ghost → Context → Prop}

theorem gwp_getNode {f : Node → RaftM α} :
    (S.logic v).gwp (getNode >>= f) Q Γ c ↔ (S.logic v).gwp (f c.node) Q Γ c :=
  Iff.rfl

theorem gwp_getLog {f : AbstractLog → RaftM α} :
    (S.logic v).gwp (getLog >>= f) Q Γ c ↔ (S.logic v).gwp (f c.log) Q Γ c :=
  Iff.rfl

variable {k : Unit → RaftM α}

theorem gwp_modifyNode {f : Node → Node}
    (h : (S.logic v).gwp (k ()) Q Γ { c with node := f c.node }) :
    (S.logic v).gwp (modifyNode f >>= k) Q Γ c :=
  gwp_bind (gwp_modify Γ ⟨World.Grows.refl v _, rfl, rfl⟩ h)

theorem gwp_modifyNode_last {f : Node → Node} {Q : Unit → Ghost → Context → Prop}
    (h : Q () Γ { c with node := f c.node }) : (S.logic v).gwp (modifyNode f) Q Γ c :=
  gwp_modify Γ ⟨World.Grows.refl v _, rfl, rfl⟩ h

theorem gwp_now {k : ℤ → RaftM α}
    (h : ∀ env : Env, c.env.clock ≤ env.clock →
      (S.logic v).gwp (k env.clock) Q Γ { c with env := env }) :
    (S.logic v).gwp (now >>= k) Q Γ c := by
  have hle : c.env.clock ≤ c.env.clock + (c.env.delays.headD 0 : ℕ) := by omega
  exact gwp_bind (gwp_modifyGet Γ ⟨World.Grows.tick hle, rfl, rfl⟩
    (h { c.env with
      clock := c.env.clock + (c.env.delays.headD 0 : ℕ), delays := c.env.delays.tail } hle))

theorem gwp_drawTimeout {k : ℤ → RaftM α}
    (h : ∀ (timeout : ℤ) (env : Env), kMinElectionTimeoutMs ≤ timeout →
      env.clock = c.env.clock → (S.logic v).gwp (k timeout) Q Γ { c with env := env }) :
    (S.logic v).gwp (drawTimeout >>= k) Q Γ c :=
  gwp_bind (gwp_modifyGet Γ ⟨World.Grows.refl v _, rfl, rfl⟩
    (h _ { c.env with timeouts := c.env.timeouts.tail } (le_max_left _ _) rfl))

theorem gwp_fail {text : String} (hs : S.Safe v Γ c) (h : S.served → text ∈ expected) :
    (S.logic v).gwp (fail text : RaftM α) Q Γ c :=
  gwp_throw ⟨hs, fun _ ht => Halt.failure.inj ht ▸ h⟩

theorem gwp_crashPoint (hs : S.Safe v Γ c)
    (h : ∀ env : Env, env.clock = c.env.clock →
      (S.logic v).gwp (k ()) Q Γ { c with env := env }) :
    (S.logic v).gwp (crashPoint >>= k) Q Γ c := by
  refine gwp_bind ?_
  rw [crashPoint, gwp_get_bind]
  rcases hc : c.env.crashAfter with _ | _ | k
  · exact gwp_pure (h c.env rfl)
  · exact gwp_throw ⟨hs, fun _ ht => by cases ht⟩
  · exact gwp_modify Γ ⟨World.Grows.refl v _, rfl, rfl⟩ (h _ rfl)

theorem gwp_observe {e : Event} (hid : c.node.nodeId = v)
    (h : (S.logic v).gwp (k ()) Q Γ { c with trace := c.trace ++ [(v, e)] }) :
    (S.logic v).gwp (observe e >>= k) Q Γ c := by
  subst hid
  exact gwp_bind (gwp_modify Γ ⟨World.Grows.observe e, rfl, rfl⟩ h)

theorem gwp_mark {e : Event} {k : ℕ → RaftM α} (hid : c.node.nodeId = v)
    (h : (S.logic v).gwp (k c.trace.length) Q Γ { c with trace := c.trace ++ [(v, e)] }) :
    (S.logic v).gwp (mark e >>= k) Q Γ c := by
  rw [mark, bind_assoc, gwp_get_bind, bind_assoc]
  refine gwp_observe hid ?_
  rw [pure_bind]
  exact h

/-- A crash leaves what was there before the effect. -/
theorem gwp_sendFrom {inc : ℕ} {peer : ℤ} {message : Message} {k : Bool → RaftM α}
    (hs : S.Safe v Γ c)
    (hsent : ∀ env : Env, env.clock = c.env.clock → (S.logic v).gwp (k true) Q Γ { c with
      net := c.net ++ [⟨v, peer, inc, c.env.clock, message⟩], env := env })
    (hlost : ∀ env : Env, env.clock = c.env.clock →
      (S.logic v).gwp (k false) Q Γ { c with env := env }) :
    (S.logic v).gwp (sendFrom inc peer message >>= k) Q Γ c := by
  obtain rfl := hs.id
  rw [sendFrom, bind_assoc]
  refine gwp_crashPoint hs fun env henv => gwp_bind ?_
  cases hb : env.sends.headD true with
  | true =>
    have hk := hsent { env with sends := env.sends.tail } henv
    rw [← henv] at hk
    refine gwp_modifyGet Γ ⟨?_, rfl, rfl⟩ ?_
    · simp only [hb, if_true]
      exact World.Grows.send (e := ⟨c.node.nodeId, peer, inc, env.clock, message⟩) rfl
    · simpa only [hb, if_true] using hk
  | false =>
    have hk := hlost { env with sends := env.sends.tail } henv
    refine gwp_modifyGet Γ ⟨?_, rfl, rfl⟩ ?_
    · simp only [hb, Bool.false_eq_true, if_false]
      exact World.Grows.refl _ _
    · simpa only [hb, Bool.false_eq_true, if_false] using hk

theorem gwp_send {peer : ℤ} {message : Message} {k : Bool → RaftM α} (hs : S.Safe v Γ c)
    (hsent : ∀ env : Env, env.clock = c.env.clock → (S.logic v).gwp (k true) Q Γ { c with
      net := c.net ++ [⟨v, peer, c.incarnation, c.env.clock, message⟩], env := env })
    (hlost : ∀ env : Env, env.clock = c.env.clock →
      (S.logic v).gwp (k false) Q Γ { c with env := env }) :
    (S.logic v).gwp (send peer message >>= k) Q Γ c := by
  rw [send, bind_assoc, gwp_get_bind]
  exact gwp_sendFrom hs hsent hlost

/-- A durable write that succeeds, and with it the protocol goes on. -/
theorem gwp_writeLog_step {operation : String} {op : AbstractLog → Except String AbstractLog}
    {log : AbstractLog} {h' : History} (hs : S.Safe v Γ c) (hop : op c.log = .ok log)
    (hle : Consensus.Le v Γ.hist h')
    (h : ∀ env : Env, env.clock = c.env.clock →
      (S.logic v).gwp (k ()) Q (Γ.setHist h') { c with log := log, env := env })
    (htext : operation ∈ expected := by decide) :
    (S.logic v).gwp (writeLog operation op >>= k) Q Γ c := by
  rw [writeLog, bind_assoc, gwp_get_bind]
  simp only [hop]
  split_ifs
  · rw [bind_assoc]
    refine gwp_bind (gwp_modify Γ ⟨World.Grows.refl v _, rfl, rfl⟩ (gwp_bind ?_))
    exact gwp_fail { hs with } fun _ => htext
  · rw [bind_assoc]
    refine gwp_crashPoint hs fun env henv => gwp_bind ?_
    exact gwp_modify (Γ.setHist h') ⟨World.Grows.setHist hle, rfl, rfl⟩ (h env henv)

theorem gwp_writeLog {operation : String} {op : AbstractLog → Except String AbstractLog}
    {log : AbstractLog} (hs : S.Safe v Γ c) (hop : op c.log = .ok log)
    (h : ∀ env : Env, env.clock = c.env.clock →
      (S.logic v).gwp (k ()) Q Γ { c with log := log, env := env })
    (htext : operation ∈ expected := by decide) :
    (S.logic v).gwp (writeLog operation op >>= k) Q Γ c :=
  gwp_writeLog_step hs hop (Consensus.Le.refl v _) h htext

/-- The same under a handler, which a crash passes by and a refused write runs. -/
theorem gwp_onFailure_writeLog {operation : String} {op : AbstractLog → Except String AbstractLog}
    {log : AbstractLog} {cleanup : RaftM Unit} {h' : History} (hs : S.Safe v Γ c)
    (hop : op c.log = .ok log) (hle : Consensus.Le v Γ.hist h')
    (h : ∀ env : Env, env.clock = c.env.clock →
      (S.logic v).gwp (k ()) Q (Γ.setHist h') { c with log := log, env := env })
    (hcleanup : ∀ env : Env, env.clock = c.env.clock →
      (S.logic v).gwp cleanup (fun _ Γ' c' => S.Safe v Γ' c') Γ { c with env := env })
    (htext : operation ∈ expected := by decide) :
    (S.logic v).gwp (onFailure cleanup (writeLog operation op) >>= k) Q Γ c := by
  refine gwp_bind ?_
  have hrel : ∀ env : Env, env.clock = c.env.clock →
      Extends v Γ c (Γ.setHist h') { c with log := log, env := env } := by
    intro env henv
    exact ⟨(World.Grows.tick henv.ge).trans (World.Grows.setHist hle), rfl, rfl⟩
  rw [gwp, onFailure, wp_tryCatch, writeLog, wp_bind, wp_get]
  simp only [hop]
  split_ifs
  · rw [wp_bind, wp_modify]
    have hundo : (S.logic v).gwp (cleanup >>= fun _ => fail operation)
        (fun a => (S.logic v).gwp (k a) Q) Γ
        { c with env := { c.env with crashAfter := none } } :=
      gwp_seq (hcleanup _ rfl) fun _ _ _ _ hs' => gwp_fail hs' fun _ => htext
    have hstep : Extends v Γ c Γ { c with env := { c.env with crashAfter := none } } :=
      ⟨World.Grows.refl v _, rfl, rfl⟩
    change wp (cleanup >>= fun _ => fail operation) _ _ _
    refine wp_mono hundo (fun a c' hp => ?_) fun e c' hp => ?_
    · obtain ⟨Γ', hr, hq⟩ := hp
      exact ⟨Γ', (S.logic v).trans hstep hr, hq⟩
    · obtain ⟨Γ', hr, hq⟩ := hp
      exact ⟨Γ', (S.logic v).trans hstep hr, hq⟩
  rw [wp_bind, crashPoint, wp_bind, wp_get]
  rcases c.env.crashAfter with _ | _ | n
  · rw [wp_pure, wp_modify]
    exact ⟨_, hrel c.env rfl, h c.env rfl⟩
  · exact ⟨Γ, (S.logic v).refl Γ c, hs, fun _ ht => by cases ht⟩
  · rw [wp_modify, wp_modify]
    exact ⟨_, hrel _ rfl, h _ rfl⟩

theorem gwp_onFailure {cleanup : RaftM Unit} {body : RaftM α} (hb : (S.logic v).gwp body Q Γ c)
    (hc : ∀ Γ' c', S.Safe v Γ' c' →
      (S.logic v).gwp cleanup (fun _ Γ'' c'' => S.Safe v Γ'' c'') Γ' c') :
    (S.logic v).gwp (onFailure cleanup body) Q Γ c := by
  refine gwp_tryCatch hb fun e Γ' c' ⟨hs, ht⟩ => ?_
  cases e with
  | crash => exact gwp_throw ⟨hs, ht⟩
  | failure text =>
    exact gwp_seq (hc Γ' c' hs) fun _ _ _ _ hs' => gwp_fail hs' (ht text rfl)

end Primitives

/-! ## What the primitives keep -/

theorem Safe.env (h : S.Safe v Γ c) {env : Env} (hle : c.env.clock ≤ env.clock) :
    S.Safe v Γ { c with env := env } :=
  { h with shared := h.shared.tick fun _ => hle }

theorem Safe.observe (h : S.Safe v Γ c)
    (he : S.EventOK ((c.world Γ).observe v e) c.trace.length v e)
    (hacc : ∀ term time, e = .accepted term time → Γ.hist.term v = term ∧ time ≤ c.env.clock)
    (hprog : Setting.progress c.sm.lastApplied e = some c.sm.lastApplied) :
    S.Safe v Γ { c with trace := c.trace ++ [(v, e)] } :=
  { h with
    shared := h.shared.observe he hacc
    progress := by rw [appliedUpTo_append_own, h.progress]; exact hprog }

theorem Safe.send (h : S.Safe v Γ c) (hm : S.MsgOK (c.world Γ) ⟨v, peer, inc, c.env.clock, message⟩)
    (hp : peer ∈ S.members) (hne : peer ≠ v) :
    S.Safe v Γ { c with net := c.net ++ [⟨v, peer, inc, c.env.clock, message⟩] } :=
  { h with shared := h.shared.send hm rfl le_rfl ⟨h.member, hp, hne.symm⟩ }

theorem Ready.env (h : S.Ready v Γ c) {env : Env} (hle : c.env.clock ≤ env.clock) :
    S.Ready v Γ { c with env := env } :=
  { h.toSafe.env hle with
    loose := h.loose.mono (World.Grows.tick (v := v) hle) (World.Frames.tick env.clock)
      h.shared.inv rfl }

theorem Ready.observe (h : S.Ready v Γ c)
    (he : S.EventOK ((c.world Γ).observe v e) c.trace.length v e)
    (hacc : ∀ term time, e ≠ .accepted term time)
    (hack : ∀ origin index command reply,
      e = .proposal origin index command (Γ.hist.term v) true reply →
      index ≤ c.node.commitIndex)
    (hprog : Setting.progress c.sm.lastApplied e = some c.sm.lastApplied) :
    S.Ready v Γ { c with trace := c.trace ++ [(v, e)] } :=
  { h.toSafe.observe he (fun term time heq => absurd heq (hacc term time)) hprog with
    loose := h.loose.mono (World.Grows.observe e) (World.Frames.observe hacc hack)
      h.shared.inv rfl }

/-- Events that say nothing of promises, acknowledgements and the KV database. -/
def inert : Event → Bool
  | .accepted _ _ | .applied _ _ _ | .installed _ _ | .proposal _ _ _ _ _ _ => false
  | _ => true

theorem Ready.note (h : S.Ready v Γ c)
    (he : S.EventOK ((c.world Γ).observe v e) c.trace.length v e) (hi : inert e = true) :
    S.Ready v Γ { c with trace := c.trace ++ [(v, e)] } := by
  refine h.observe he (fun _ _ heq => ?_) (fun _ _ _ _ heq => ?_) ?_
  · rw [heq] at hi
    cases hi
  · rw [heq] at hi
    cases hi
  · cases e <;> first | rfl | cases hi

theorem Steady.note (h : S.Steady v Γ c)
    (he : S.EventOK ((c.world Γ).observe v e) c.trace.length v e) (hi : inert e = true) :
    S.Steady v Γ { c with trace := c.trace ++ [(v, e)] } :=
  { h.toReady.note he hi with idle := h.idle }

theorem Ready.send (h : S.Ready v Γ c)
    (hm : S.MsgOK (c.world Γ) ⟨v, peer, inc, c.env.clock, message⟩)
    (hid : requestId message = none) (hp : peer ∈ S.members) (hne : peer ≠ v) :
    S.Ready v Γ { c with net := c.net ++ [⟨v, peer, inc, c.env.clock, message⟩] } :=
  { h.toSafe.send hm hp hne with
    loose := h.loose.mono (World.Grows.send rfl) (World.Frames.send fun k => by simp [hid])
      h.shared.inv rfl }

theorem Steady.env (h : S.Steady v Γ c) {env : Env} (hle : c.env.clock ≤ env.clock) :
    S.Steady v Γ { c with env := env } :=
  { h.toReady.env hle with idle := h.idle }

/-- Fields of a node that the relation does not mention. -/
theorem LooseOK.tweak {W : World} {n : Node} {log : AbstractLog} {sm : Store} {exec : Executor}
    (h : S.LooseOK W v n log sm exec inc) (healthy : Bool) (threshold attempt : ℤ)
    (chunk : ℕ) (since : ℤ) (active : ℤ → Option ℤ) (timer : ℤ) (bytes round : ℕ)
    (completing : Bool) :
    S.LooseOK W v { n with
      storageHealthy := healthy, snapshotThreshold := threshold, lastSnapshotAttempt := attempt,
      snapshotChunkBytes := chunk, leaderSince := since, peerActive := active,
      heartbeatTimerMs := timer, pendingBytes := bytes, nextRoundId := round,
      completingReads := completing } log sm exec inc where
  core := { h.core with }
  rpc := h.rpc
  lead hr := { h.lead hr with }
  proposals := h.proposals
  reads hr := { h.reads hr with }
  promise := h.promise

theorem Steady.tweak (h : S.Steady v Γ c) (healthy : Bool) (threshold attempt : ℤ) (chunk : ℕ)
    (since : ℤ) (active : ℤ → Option ℤ) (timer : ℤ) (bytes round : ℕ) (completing : Bool) :
    S.Steady v Γ { c with node := { c.node with
      storageHealthy := healthy, snapshotThreshold := threshold, lastSnapshotAttempt := attempt,
      snapshotChunkBytes := chunk, leaderSince := since, peerActive := active,
      heartbeatTimerMs := timer, pendingBytes := bytes, nextRoundId := round,
      completingReads := completing } } :=
  { h with
    loose := h.loose.tweak healthy threshold attempt chunk since active timer bytes round completing
    idle := fun hr => { h.idle hr with } }

theorem Ready.sendFrom (h : S.Ready v Γ c)
    (hm : S.MsgOK (c.world Γ) ⟨v, peer, inc, c.env.clock, message⟩)
    (hid : requestId message = none) (hp : peer ∈ S.members) (hne : peer ≠ v) :
    (S.logic v).gwp (RaftM.sendFrom inc peer message)
      (fun _ Γ' c' => S.Ready v Γ' c' ∧ Stays Γ c Γ' c' ∧ c'.node = c.node) Γ c := by
  rw [← bind_pure (RaftM.sendFrom inc peer message)]
  refine gwp_sendFrom h.toSafe (fun env henv => gwp_pure ⟨?_, rfl, rfl⟩)
    fun env henv => gwp_pure ⟨h.env henv.ge, rfl, rfl⟩
  have hsent := h.send hm hid hp hne
  exact hsent.env henv.ge

theorem Ready.reply (h : S.Ready v Γ c)
    (hm : S.MsgOK (c.world Γ) ⟨v, peer, c.replyTo, c.env.clock, message⟩)
    (hid : requestId message = none) (hp : peer ∈ S.members) (hne : peer ≠ v) :
    (S.logic v).gwp (RaftM.reply peer message)
      (fun _ Γ' c' => S.Ready v Γ' c' ∧ Stays Γ c Γ' c' ∧ c'.node = c.node) Γ c := by
  rw [RaftM.reply, gwp_get_bind]
  exact gwp_seq (h.sendFrom hm hid hp hne) fun _ _ _ _ hq => gwp_pure hq

theorem Steady.reply (h : S.Steady v Γ c)
    (hm : S.MsgOK (c.world Γ) ⟨v, peer, c.replyTo, c.env.clock, message⟩)
    (hid : requestId message = none) (hp : peer ∈ S.members) (hne : peer ≠ v) :
    (S.logic v).gwp (RaftM.reply peer message)
      (fun _ Γ' c' => S.Steady v Γ' c' ∧ Stays Γ c Γ' c') Γ c := by
  refine gwp_mono (h.toReady.reply hm hid hp hne) fun _ Γ' c' _ hq => ?_
  obtain ⟨hr, hst, hn⟩ := hq
  exact ⟨{ hr with idle := by rw [hn]; exact h.idle }, hst⟩

end Setting

end RaftKV
