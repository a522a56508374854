import RaftKV.Node.Apply
import RaftKV.Server.Replies

/-!
# Flushes of the write queue

A flush that was planned has a token, and one callback or timer carries it. The tokens that are
out are different, and the current one is among those of the queued callbacks and of the timers
that will fire (`Flusher.OK`) : a flush that was cancelled, or replaced by a newer one, has another
token and is not accepted.

The part of the server that matters to the queue is its `Backlog`. A move changes it in few ways
(`Handled`), and from them follows what is known of it after any events (`Backlog.OK`) : a flush
is planned while writes are queued, and the writes leave the queue in the order of their arrival,
into batches that fit unless their connection is gone.
-/

namespace RaftKV

/-! ## Tokens -/

/-- `Request` keeps the plan there is, or makes one with the next token. -/
theorem BatchFlushPolicy.request_cases {p p' : BatchFlushPolicy} {plan : Plan} {entries bytes : ℕ}
    {elapsed : Bool} (h : p.request entries bytes elapsed = .ok (plan, p')) :
    plan.action = .none ∧ p' = p ∧ (entries ≠ 0 → p.pending ≠ .none) ∨
      plan.action ≠ .none ∧ plan.token = p.generation + 1 ∧
        p' = ⟨plan.action, p.generation + 1⟩ := by
  rw [request] at h
  dsimp only at h
  split_ifs at h with hnone hkept
  · obtain ⟨rfl, rfl⟩ := Prod.mk.inj (Except.ok.inj h)
    refine .inl ⟨rfl, rfl, fun hentries => ?_⟩
    rw [hnone.resolve_left hentries]
    simp
  · obtain ⟨rfl, rfl⟩ := Prod.mk.inj (Except.ok.inj h)
    refine .inl ⟨rfl, rfl, fun _ => ?_⟩
    rw [hkept.1]
    simp
  all_goals
    obtain ⟨rfl, rfl⟩ := Prod.mk.inj (Except.ok.inj h)
    exact .inr ⟨by simp, rfl, rfl⟩

namespace Flusher

/-- The tokens of the callbacks that are out. -/
def tokens (f : Flusher) : List ℕ :=
  f.queued ++ f.armed ++ f.cancelled

/-- The invariant of the flushes. -/
structure OK (f : Flusher) : Prop where
  nodup : f.tokens.Nodup
  le : ∀ token ∈ f.tokens, token ≤ f.policy.generation
  current : f.policy.pending ≠ .none → f.policy.generation ∈ f.queued ++ f.armed

variable {f f' : Flusher} {token : ℕ}

theorem ok_new : OK {} :=
  ⟨List.nodup_nil, fun token h => by simp [tokens] at h, fun h => absurd rfl h⟩

theorem perm_cancel (f : Flusher) : f.cancel.tokens.Perm f.tokens := by
  rw [cancel]
  split
  · exact .refl _
  next token _ =>
  rw [tokens, tokens]
  dsimp only
  split_ifs with hmem
  · have herase : (token :: f.armed.erase token).Perm f.armed := (List.perm_cons_erase hmem).symm
    rw [List.append_assoc, List.append_assoc]
    refine List.Perm.append_left _ ?_
    rw [← List.append_assoc]
    exact List.perm_append_singleton .. |>.trans (herase.append_right f.cancelled)
  · rw [List.erase_of_not_mem hmem]

@[simp] theorem cancel_policy (f : Flusher) : f.cancel.policy = f.policy := by
  rw [cancel]
  split <;> rfl

/-- What a new plan does, if there is one. -/
theorem schedule_cases {entries bytes : ℕ} {elapsed : Bool}
    (h : f.schedule entries bytes elapsed = .ok f') :
    f' = f ∧ (entries ≠ 0 → f.policy.pending ≠ .none) ∨
      f'.policy.pending ≠ .none ∧ f'.policy.generation = f.policy.generation + 1 ∧
      f'.policy.generation ∈ f'.queued ++ f'.armed ∧
      f'.tokens.Perm (f'.policy.generation :: f.tokens) := by
  rw [schedule] at h
  cases hrequest : f.policy.request entries bytes elapsed with
  | error message =>
    rw [hrequest] at h
    cases h
  | ok planned =>
    obtain ⟨plan, policy⟩ := planned
    simp only [hrequest, bind, Except.bind, pure, Except.pure] at h
    have hperm : ({ f with policy := policy } : Flusher).cancel.tokens.Perm f.tokens :=
      perm_cancel { f with policy := policy }
    have hpolicy := cancel_policy { f with policy := policy }
    generalize ({ f with policy := policy } : Flusher).cancel = g at h hperm hpolicy
    rcases BatchFlushPolicy.request_cases hrequest with
      ⟨haction, rfl, hpending⟩ | ⟨haction, htoken, rfl⟩
    · rw [haction] at h
      exact .inl ⟨(Except.ok.inj h).symm, hpending⟩
    refine .inr ?_
    dsimp only at hpolicy
    cases hplan : plan.action with
    | none => exact absurd hplan haction
    | immediate =>
      rw [hplan] at h
      obtain rfl := Except.ok.inj h
      rw [hpolicy, htoken]
      refine ⟨haction, rfl, by simp, ?_⟩
      refine List.Perm.trans ?_ (hperm.cons _)
      rw [tokens, tokens, List.append_assoc, List.append_assoc, List.append_assoc]
      exact List.perm_middle
    | delayed =>
      rw [hplan] at h
      obtain rfl := Except.ok.inj h
      rw [hpolicy, htoken]
      refine ⟨haction, rfl, by simp, ?_⟩
      refine List.Perm.trans ?_ (hperm.cons _)
      rw [tokens, tokens, ← List.append_assoc, List.append_assoc (g.queued ++ g.armed)]
      exact List.perm_middle

theorem OK.schedule {entries bytes : ℕ} {elapsed : Bool} (h : f.OK)
    (hschedule : f.schedule entries bytes elapsed = .ok f') :
    f'.OK ∧ (entries ≠ 0 → f'.policy.pending ≠ .none) := by
  rcases schedule_cases hschedule with ⟨rfl, hpending⟩ | ⟨hpending, hgeneration, hmem, hperm⟩
  · exact ⟨h, hpending⟩
  refine ⟨⟨hperm.nodup_iff.mpr (List.nodup_cons.mpr ⟨fun hold => ?_, h.nodup⟩), ?_,
    fun _ => hmem⟩, fun _ => hpending⟩
  · have hle := h.le _ hold
    omega
  intro token htoken
  rcases List.mem_cons.mp (hperm.subset htoken) with rfl | hold
  · exact le_rfl
  · have hle := h.le _ hold
    omega

theorem perm_fire (h : f.OK) (hmem : token ∈ f.armed ∨ token ∈ f.cancelled) :
    (f.fire token).tokens.Perm f.tokens := by
  refine List.perm_iff_count.mpr fun a => ?_
  have hone := List.nodup_iff_count_le_one.mp h.nodup token
  have hpos : 0 < f.armed.count token ∨ 0 < f.cancelled.count token :=
    hmem.imp List.count_pos_iff.mpr List.count_pos_iff.mpr
  simp only [tokens, Flusher.fire, List.count_append, List.count_erase,
    List.count_singleton] at hone ⊢
  by_cases ha : token = a
  · subst ha
    simp only [beq_self_eq_true, if_true]
    omega
  · have hne : (token == a) = false := by simpa using ha
    simp [hne]

theorem OK.fire (h : f.OK) (hmem : token ∈ f.armed ∨ token ∈ f.cancelled) : (f.fire token).OK := by
  have hperm := perm_fire h hmem
  refine ⟨hperm.nodup_iff.mpr h.nodup, fun t ht => h.le t (hperm.subset ht), fun hpending => ?_⟩
  have hcurrent := h.current hpending
  simp only [Flusher.fire, List.mem_append, List.mem_singleton] at hcurrent ⊢
  by_cases htoken : f.policy.generation = token
  · exact .inl (.inr htoken)
  · exact hcurrent.imp .inl (List.mem_erase_of_ne htoken).mpr

/-- A callback that is not current changes nothing but that it has run. -/
theorem consume_of_stale (h : f.policy.pending = .none ∨ token ≠ f.policy.generation) :
    f.consume token = (false, { f with queued := f.queued.erase token }) := by
  simp [consume, BatchFlushPolicy.consume, h]

theorem consume_of_current (h : f.policy.pending ≠ .none) :
    f.consume f.policy.generation = (true, { f with
      queued := f.queued.erase f.policy.generation
      policy := { f.policy with pending := .none }
      timer := none }) := by
  simp [consume, BatchFlushPolicy.consume, h]

theorem consume_eq_of_stale (h : (f.consume token).1 = false) :
    (f.consume token).2 = { f with queued := f.queued.erase token } := by
  by_cases hstale : f.policy.pending = .none ∨ token ≠ f.policy.generation
  · rw [consume_of_stale hstale]
  push Not at hstale
  obtain ⟨hpending, rfl⟩ := hstale
  rw [consume_of_current hpending] at h
  cases h

theorem OK.consume (h : f.OK) (token : ℕ) : (f.consume token).2.OK := by
  have hsub : (f.queued.erase token ++ f.armed ++ f.cancelled).Sublist f.tokens :=
    (List.erase_sublist.append_right _).append_right _
  have hnodup := h.nodup.sublist hsub
  have hle : ∀ t ∈ f.queued.erase token ++ f.armed ++ f.cancelled, t ≤ f.policy.generation :=
    fun t ht => h.le t (hsub.subset ht)
  by_cases hstale : f.policy.pending = .none ∨ token ≠ f.policy.generation
  · rw [consume_of_stale hstale]
    refine ⟨hnodup, hle, fun hpending => ?_⟩
    have htoken : f.policy.generation ≠ token := (hstale.resolve_left hpending).symm
    refine List.mem_append.mpr ((List.mem_append.mp (h.current hpending)).imp_left ?_)
    exact (List.mem_erase_of_ne htoken).mpr
  push Not at hstale
  obtain ⟨hpending, rfl⟩ := hstale
  rw [consume_of_current hpending]
  exact ⟨hnodup, hle, fun hnone => absurd rfl hnone⟩

/-- The current token is accepted, and carried by one callback or timer. -/
theorem OK.count (h : f.OK) (hpending : f.policy.pending ≠ .none) :
    (f.queued ++ f.armed).count f.policy.generation = 1 ∧
      (f.consume f.policy.generation).1 = true := by
  refine ⟨List.count_eq_one_of_mem (h.nodup.sublist ?_) (h.current hpending), ?_⟩
  · exact List.sublist_append_left ..
  · rw [consume_of_current hpending]

end Flusher

namespace Server

/-! ## The backlog -/

/-- The part of the server that matters to the write queue. -/
structure Backlog where
  flusher : Flusher
  writes : List QueuedWrite
  flushing : Option Flushing
  arrivals : List QueuedWrite
  batches : List (List QueuedWrite)
  journal : List (QueuedWrite × Bool)

/-- The backlog of a server. -/
def backlog (s : Server) : Backlog :=
  ⟨s.flusher, s.writes, s.flushing, s.arrivals, s.batches, s.journal⟩

section Backlog

variable (s : Server) (id : Name)

@[simp] theorem backlog_modifySession (f : ClientSession → ClientSession) :
    (s.modifySession id f).backlog = s.backlog := rfl

@[simp] theorem backlog_modifyConnection (f : Connection → Connection) :
    (s.modifyConnection id f).backlog = s.backlog := rfl

@[simp] theorem backlog_modifyTranscript (f : Transcript → Transcript) :
    (s.modifyTranscript id f).backlog = s.backlog := rfl

@[simp] theorem backlog_note (n : Note) : (s.note id n).backlog = s.backlog := rfl

@[simp] theorem backlog_subtracts (a b : ℕ) : (s.subtracts a b).backlog = s.backlog := rfl

@[simp] theorem backlog_setInputBytes (n : ℕ) : (s.setInputBytes n).backlog = s.backlog := rfl

@[simp] theorem backlog_setOutputBytes (n : ℕ) : (s.setOutputBytes n).backlog = s.backlog := rfl

@[simp] theorem backlog_setNs (ns : Option Bytes) : (s.setNs id ns).backlog = s.backlog := rfl

@[simp] theorem backlog_closeClient : (s.closeClient id).backlog = s.backlog := rfl

@[simp] theorem backlog_accountOutput : (s.accountOutput id).backlog = s.backlog := by
  rw [accountOutput, backlog_setOutputBytes, backlog_modifySession, backlog_subtracts]

@[simp] theorem backlog_send (view : View) (number : Option ℕ) (reply : Bytes) :
    (send view s id number reply).backlog = s.backlog := rfl

@[simp] theorem backlog_sendReply (view : View) (number : Option ℕ) (reply : Bytes) :
    (sendReply view s id number reply).backlog = s.backlog := by
  rw [sendReply]
  dsimp only
  rw [← backlog_note s id (.handed number reply)]
  generalize s.note id (.handed number reply) = t
  by_cases hlive : t.live id = true
  swap
  · rw [if_pos hlive]
  rw [if_neg (not_not.mpr hlive), ← backlog_accountOutput t id]
  generalize t.accountOutput id = u
  -- the limits that are looked at do not matter
  have hsame : ∀ a b a' b' : ℕ, ((u.subtracts a b).subtracts a' b').backlog = u.backlog :=
    fun _ _ _ _ => rfl
  rw [← hsame kMaxClientOutput (u.session id).accountedOutput kMaxTotalOutput u.outputBytes]
  generalize (u.subtracts kMaxClientOutput (u.session id).accountedOutput).subtracts kMaxTotalOutput
    u.outputBytes = w
  split_ifs
  · rw [backlog_closeClient]
  · rw [backlog_accountOutput, backlog_send]

@[simp] theorem backlog_finish : (s.finish id).backlog = s.backlog := by
  rw [finish]
  split_ifs <;> rfl

@[simp] theorem backlog_unwait (told : Bool) : (s.unwait id told).backlog = s.backlog := by
  rw [unwait]
  split_ifs <;> rfl

@[simp] theorem backlog_start (command : QueuedCommand) (queue : SessionCommandQueue) :
    (s.start id command queue).backlog = s.backlog := rfl

@[simp] theorem backlog_scheduleDrain : (s.scheduleDrain id).backlog = s.backlog := by
  rw [scheduleDrain]
  dsimp only
  split_ifs <;> rfl

@[simp] theorem backlog_onConnect (flags : Flags) : (onConnect flags s id).backlog = s.backlog := by
  rw [onConnect]
  split_ifs <;> rfl

@[simp] theorem backlog_onDisconnect : (s.onDisconnect id).backlog = s.backlog := by
  rw [onDisconnect, backlog_setNs]
  cases (s.modifyConnection id fun c => { c with link := .disconnected }).sessions.lookup id with
  | none => rfl
  | some session =>
    dsimp only
    rw [backlog, backlog]
    rfl

@[simp] theorem backlog_receive (bytes : Bytes) : (s.receive id bytes).backlog = s.backlog := by
  rw [receive, backlog_setInputBytes, backlog_modifySession, backlog_modifyTranscript]

@[simp] theorem backlog_drainInput : (s.drainInput id).2.backlog = s.backlog := by
  rw [drainInput, backlog_setInputBytes, backlog_modifySession, backlog_subtracts]

@[simp] theorem backlog_rejectFrame (view : View) (error : String) :
    (rejectFrame view s id error).backlog = s.backlog := by
  rw [rejectFrame, backlog_modifyConnection, backlog_modifySession]
  split_ifs <;> simp only [backlog_sendReply, backlog_modifyConnection]

end Backlog

/-! ## Batches -/

/-- The bytes of some writes. -/
def bytesOf (writes : List QueuedWrite) : ℕ :=
  (writes.map fun w => w.command.length).sum

/-- The writes that are proposed, of those taken from the queue. -/
def proposed (taken : List (QueuedWrite × Bool)) : List QueuedWrite :=
  (taken.filter Prod.snd).map Prod.fst

/-- Every command of the writes is one that `SubmitWrite` lets pass. -/
def Small (writes : List QueuedWrite) : Prop :=
  ∀ w ∈ writes, w.command.length ≤ kMaxCommandBytes

/-- A part of the queue is taken by one flush. -/
structure Taking (live : Name → Bool) (writes : List QueuedWrite)
    (taken : List (QueuedWrite × Bool)) (left : List QueuedWrite) : Prop where
  writes : writes = taken.map Prod.fst ++ left
  live : ∀ e ∈ taken, e.2 = live e.1.request.connection
  count : taken.length ≤ BatchFlushPolicy.kMaxEntries
  size : bytesOf (proposed taken) ≤ BatchFlushPolicy.kMaxBytes

variable {flags : Flags} {view : View} {s s' t : Server}

theorem proposed_append (taken more : List (QueuedWrite × Bool)) :
    proposed (taken ++ more) = proposed taken ++ proposed more := by
  simp [proposed]

theorem bytesOf_append (writes more : List QueuedWrite) :
    bytesOf (writes ++ more) = bytesOf writes + bytesOf more := by
  simp [bytesOf]

theorem backlog_popWrite (s : Server) (write : QueuedWrite) (writes : List QueuedWrite) :
    (s.popWrite write writes).backlog = { s.backlog with
      writes := writes
      journal := s.journal ++ [(write, s.live write.request.connection)] } := by
  rw [popWrite, backlog, backlog]
  rfl

/-- What the loop of `FlushQueuedWrites` has done after some turns. -/
structure Turns (s : Server) (n : ℕ) (owners : List QueuedWrite) (bytes : ℕ) (t : Server)
    (taken : List (QueuedWrite × Bool)) : Prop where
  owners_eq : owners = proposed taken
  bytes_eq : bytes = bytesOf owners
  count : taken.length + n = BatchFlushPolicy.kMaxEntries
  taking : Taking s.live s.writes taken t.writes
  live : ∀ id, t.live id = s.live id
  backlog : t.backlog = { s.backlog with
    writes := t.writes
    journal := s.journal ++ taken }

variable {writes : List QueuedWrite} {live : Name → Bool}

theorem Turns.pop {n : ℕ} {owners : List QueuedWrite} {bytes : ℕ}
    {taken : List (QueuedWrite × Bool)} (h : s.Turns (n + 1) owners bytes t taken)
    {write : QueuedWrite} (hwrites : t.writes = write :: writes)
    {live : Bool} (hlive : t.live write.request.connection = live) {owners' : List QueuedWrite}
    (howners : owners' = proposed (taken ++ [(write, live)]))
    (hsize : bytesOf owners' ≤ BatchFlushPolicy.kMaxBytes) :
    s.Turns n owners' (bytesOf owners') (t.popWrite write writes) (taken ++ [(write, live)]) := by
  have hpop := backlog_popWrite t write writes
  have hleft : (t.popWrite write writes).writes = writes := congrArg Backlog.writes hpop
  refine ⟨howners, rfl, ?_, ⟨?_, ?_, ?_, howners ▸ hsize⟩, fun id => ?_, ?_⟩
  · rw [List.length_append, List.length_singleton, add_assoc, add_comm 1 n]
    exact h.count
  · rw [hleft, h.taking.writes, hwrites]
    simp
  · intro e he
    rcases List.mem_append.mp he with he | he
    · exact h.taking.live e he
    · obtain rfl := List.mem_singleton.mp he
      rw [← h.live, hlive]
  · have hcount := h.count
    rw [List.length_append, List.length_singleton]
    omega
  · rw [live_popWrite, h.live]
  · rw [hpop, h.backlog, hleft, hlive]
    have hjournal : t.journal = s.journal ++ taken := congrArg Backlog.journal h.backlog
    rw [hjournal, List.append_assoc]

theorem collectWrites_taking (hsmall : Small s.writes) {owners : List QueuedWrite}
    (h : collectWrites BatchFlushPolicy.kMaxEntries [] 0 s = (owners, t)) :
    ∃ taken, owners = proposed taken ∧ Taking s.live s.writes taken t.writes ∧
      t.backlog = { s.backlog with
        writes := t.writes
        journal := s.journal ++ taken } := by
  have hnew : s.Turns BatchFlushPolicy.kMaxEntries [] 0 s [] :=
    ⟨rfl, rfl, Nat.zero_add _, ⟨rfl, by simp, Nat.zero_le _, Nat.zero_le _⟩, fun _ => rfl,
      by rw [List.append_nil]; rfl⟩
  suffices hcollected : ∃ n bytes taken, s.Turns n owners bytes t taken by
    obtain ⟨n, bytes, taken, hturns⟩ := hcollected
    exact ⟨taken, hturns.owners_eq, hturns.taking, hturns.backlog⟩
  refine collectWrites_induction (P := fun n owners bytes t => ∃ taken, s.Turns n owners bytes t
    taken) ?_ ?_ ?_ BatchFlushPolicy.kMaxEntries ⟨[], hnew⟩ h
  · rintro n owners bytes t ⟨taken, hturns⟩
    exact ⟨taken, hturns.owners_eq, hturns.bytes_eq, hturns.count, hturns.taking, hturns.live,
      hturns.backlog⟩
  · rintro n owners bytes t write writes ⟨taken, hturns⟩ hwrites hfits hlive
    have howners : owners ++ [write] = proposed (taken ++ [(write, true)]) := by
      rw [proposed_append, hturns.owners_eq]
      rfl
    have hbytes : bytes + write.command.length = bytesOf (owners ++ [write]) := by
      rw [bytesOf_append, hturns.bytes_eq]
      rfl
    have hle : bytes ≤ BatchFlushPolicy.kMaxBytes := by
      rw [hturns.bytes_eq, hturns.owners_eq]
      exact hturns.taking.size
    refine ⟨taken ++ [(write, true)], hbytes ▸ hturns.pop hwrites hlive howners ?_⟩
    rw [← hbytes]
    rcases hfits with rfl | hfits
    · -- the first write of a batch may be as large as a command may be
      rw [hturns.bytes_eq]
      refine (Nat.zero_add _).trans_le (hsmall write ?_)
      rw [hturns.taking.writes, hwrites]
      simp
    · rw [sizeSub_of_le hle (by simp [BatchFlushPolicy.kMaxBytes])] at hfits
      omega
  · rintro n owners bytes t write writes ⟨taken, hturns⟩ hwrites hdead
    have howners : owners = proposed (taken ++ [(write, false)]) := by
      rw [proposed_append, hturns.owners_eq]
      exact (List.append_nil _).symm
    refine ⟨taken ++ [(write, false)], hturns.bytes_eq ▸ hturns.pop hwrites hdead howners ?_⟩
    rw [hturns.owners_eq]
    exact hturns.taking.size

/-! ## What a move does to the backlog -/

/-- `ScheduleFlush` with these writes in the queue. -/
def Scheduled (f : Flusher) (writes : List QueuedWrite) (f' : Flusher) : Prop :=
  writes = [] ∧ f' = f ∨
    ∃ bytes elapsed, f.schedule writes.length bytes elapsed = .ok f'

/-- What a move does to the backlog. -/
inductive Handled (live : Name → Bool) (b : Backlog) : Backlog → Prop
  | same : Handled live b b
  | told {r : Request} {owners : List Request} {index : ℤ}
      (h : b.flushing = some ⟨r :: owners, index⟩) :
    Handled live b { b with flushing := some ⟨owners, index⟩ }
  | submit {w : QueuedWrite} {f : Flusher} (hsize : w.command.length ≤ kMaxCommandBytes)
      (hflush : Scheduled b.flusher (b.writes ++ [w]) f) :
    Handled live b { b with
      flusher := f
      writes := b.writes ++ [w]
      arrivals := b.arrivals ++ [w] }
  | fire {token : ℕ} (h : token ∈ b.flusher.armed ∨ token ∈ b.flusher.cancelled) :
    Handled live b { b with flusher := b.flusher.fire token }
  | stale (token : ℕ) (h : (b.flusher.consume token).1 = false) :
    Handled live b { b with flusher := (b.flusher.consume token).2 }
  | flush (token : ℕ) {taken : List (QueuedWrite × Bool)} {left : List QueuedWrite}
      {flushing : Flushing} (hidle : b.flushing = none) (htaking : Taking live b.writes taken left)
      (hne : proposed taken ≠ []) :
    Handled live b { b with
      flusher := (b.flusher.consume token).2
      writes := left
      flushing := some flushing
      batches := b.batches ++ [proposed taken]
      journal := b.journal ++ taken }
  | flushNone (token : ℕ) {taken : List (QueuedWrite × Bool)} {left : List QueuedWrite}
      {f : Flusher} (hidle : b.flushing = none) (htaking : Taking live b.writes taken left)
      (hnone : proposed taken = []) (hflush : Scheduled (b.flusher.consume token).2 left f) :
    Handled live b { b with
      flusher := f
      writes := left
      journal := b.journal ++ taken }
  | endFlush {f : Flusher} (hflush : Scheduled b.flusher b.writes f) :
    Handled live b { b with
      flusher := f
      flushing := none }

theorem scheduled_of_scheduleFlush (h : scheduleFlush flags view s = .ok s') :
    ∃ f, Scheduled s.flusher s.writes f ∧ s'.backlog = { s.backlog with flusher := f } := by
  rcases scheduleFlush_eq h with ⟨hwrites, rfl⟩ | ⟨-, elapsed, f, hschedule, rfl⟩
  · exact ⟨s'.flusher, .inl ⟨hwrites, rfl⟩, rfl⟩
  · exact ⟨f, .inr ⟨_, elapsed, hschedule⟩, rfl⟩

theorem Takes.handled {r : Request} (h : s.Takes r t) (live : Name → Bool) :
    Handled live s.backlog t.backlog := by
  cases h with
  | proposal i hget => exact .same
  | read i hget => exact .same
  | owner hflushing => exact .told hflushing

theorem backlog_enqueueWrite (s : Server) (r : Request) (command : Bytes) :
    (enqueueWrite view s r command).backlog = { s.backlog with
      writes := s.writes ++ [⟨command, r, view.now s⟩]
      arrivals := s.arrivals ++ [⟨command, r, view.now s⟩] } := by
  rw [enqueueWrite, backlog, backlog]
  rfl

theorem backlog_proposeBatch (t : Server) (owners : List QueuedWrite) (index : ℤ) :
    ∃ flushing, (t.proposeBatch owners index).backlog = { t.backlog with
      flushing := some flushing
      batches := t.batches ++ [owners] } := by
  rw [proposeBatch]
  split_ifs
  · exact ⟨⟨owners.map QueuedWrite.request, index⟩, rfl⟩
  · exact ⟨⟨[], index⟩, rfl⟩

/-- **Every move handles the backlog.** -/
theorem Move.handled (hsmall : Small s.writes) (h : Move flags view s s') :
    Handled s.live s.backlog s'.backlog := by
  have hsame : s'.backlog = s.backlog → Handled s.live s.backlog s'.backlog := fun hs => hs ▸ .same
  cases h with
  | connect id hlink => exact hsame (backlog_onConnect s id flags)
  | disconnect id hup => exact hsame (backlog_onDisconnect s id)
  | stray id hnone hup => exact .same
  | overload hlookup hclosing =>
    exact hsame (by rw [backlog_closeClient, backlog_subtracts])
  | receive hlookup hclosing hfits happend =>
    exact hsame (by rw [backlog_receive, backlog_subtracts])
  | wake id => exact .same
  | drain hlookup hvalid => exact hsame (backlog_drainInput s _)
  | reject hlookup hinvalid => exact hsame (by rw [backlog_rejectFrame, backlog_drainInput])
  | stopRead id => exact .same
  | scheduleDrain hlookup => exact hsame (backlog_scheduleDrain s _)
  | answer ns counted reply hidle hpop hcounted =>
    exact hsame (by
      rw [backlog_finish, backlog_sendReply, backlog_subtracts, backlog_setNs, backlog_start])
  | @submit id _ command queue text _ hidle hpop hsize hcount hbytes hflush =>
    obtain ⟨f, hscheduled, hbacklog⟩ := scheduled_of_scheduleFlush hflush
    have hstart : ((s.start id command queue).subtracts kMaxQueuedWriteBytes
        s.queuedWriteBytes).backlog = s.backlog := by rw [backlog_subtracts, backlog_start]
    generalize (s.start id command queue).subtracts kMaxQueuedWriteBytes s.queuedWriteBytes = u
      at hscheduled hbacklog hstart
    have hqueued := @backlog_enqueueWrite view u ⟨id, s.nextNumber id⟩ text
    have hflusher : (enqueueWrite view u ⟨id, s.nextNumber id⟩ text).flusher = s.flusher :=
      (congrArg Backlog.flusher hqueued).trans (congrArg Backlog.flusher hstart)
    have hwrites : u.writes = s.writes := congrArg Backlog.writes hstart
    have harrivals : u.arrivals = s.arrivals := congrArg Backlog.arrivals hstart
    have hqueue : (enqueueWrite view u ⟨id, s.nextNumber id⟩ text).writes = _ :=
      congrArg Backlog.writes hqueued
    rw [hflusher, hqueue, hwrites] at hscheduled
    rw [hbacklog, hqueued, hstart, hwrites, harrivals]
    exact .submit hsize hscheduled
  | register key hidle hpop => exact .same
  | deliver before after reply htakes hlive =>
    rw [backlog_finish, backlog_unwait, backlog_sendReply, backlog_unwait]
    exact htakes.handled _
  | abandon htakes hdead => exact htakes.handled _
  | fire token hmem => exact .fire hmem
  | stale hmem hstale => exact .stale _ hstale
  | @flush token index owners t hidle hmem hcurrent hcollect hne =>
    obtain ⟨taken, rfl, htaking, hbacklog⟩ := collectWrites_taking (by exact hsmall) hcollect
    obtain ⟨flushing, hpropose⟩ := backlog_proposeBatch t (proposed taken) index
    have hbatches : t.batches = s.batches := congrArg Backlog.batches hbacklog
    rw [hpropose, hbacklog, hbatches]
    exact .flush token hidle htaking hne
  | @flushNone token t s' hidle hmem hcurrent hcollect hflush =>
    obtain ⟨taken, hnone, htaking, hbacklog⟩ := collectWrites_taking (by exact hsmall) hcollect
    obtain ⟨f, hscheduled, hflushed⟩ := scheduled_of_scheduleFlush hflush
    have hflusher : t.flusher = (s.flusher.consume token).2 := congrArg Backlog.flusher hbacklog
    rw [hflushed, hbacklog]
    exact .flushNone token hidle htaking hnone.symm (hflusher ▸ hscheduled)
  | endFlush hflushing hflush =>
    obtain ⟨f, hscheduled, hbacklog⟩ := scheduled_of_scheduleFlush hflush
    rw [hbacklog]
    exact .endFlush hscheduled
  | written id output hle => exact .same
  | writeComplete hlookup => exact hsame (backlog_accountOutput s _)

/-! ## The invariant -/

/-- A batch that `ProposeBatch` lets pass if there is room. -/
structure Fits (batch : List QueuedWrite) : Prop where
  ne : batch ≠ []
  count : batch.length ≤ BatchFlushPolicy.kMaxEntries
  size : bytesOf batch ≤ BatchFlushPolicy.kMaxBytes

/-- What is known of the backlog : a flush is planned unless one runs, every write that arrived is
in the journal or in the queue, and the batches are those of the journal that were proposed. -/
structure Backlog.OK (b : Backlog) : Prop where
  flusher : b.flusher.OK
  planned : b.flushing = none → b.writes ≠ [] → b.flusher.policy.pending ≠ .none
  arrivals : b.arrivals = b.journal.map Prod.fst ++ b.writes
  batches : b.batches.flatten = proposed b.journal
  small : Small b.writes
  fits : ∀ batch ∈ b.batches, Fits batch

theorem Scheduled.ok {f f' : Flusher} (h : Scheduled f writes f')
    (hf : f.OK) : f'.OK ∧ (writes ≠ [] → f'.policy.pending ≠ .none) := by
  rcases h with ⟨rfl, rfl⟩ | ⟨bytes, elapsed, hschedule⟩
  · exact ⟨hf, fun hne => absurd rfl hne⟩
  · obtain ⟨hok, hplanned⟩ := hf.schedule hschedule
    exact ⟨hok, fun hne => hplanned (mt List.length_eq_zero_iff.mp hne)⟩

theorem Taking.fits {left : List QueuedWrite}
    {taken : List (QueuedWrite × Bool)} (h : Taking live writes taken left)
    (hne : proposed taken ≠ []) : Fits (proposed taken) where
  ne := hne
  count := by
    refine le_trans ?_ h.count
    rw [proposed, List.length_map]
    exact List.length_filter_le ..
  size := h.size

theorem Taking.small {left : List QueuedWrite}
    {taken : List (QueuedWrite × Bool)} (h : Taking live writes taken left)
    (hsmall : Small writes) : Small left :=
  fun w hw => hsmall w (h.writes ▸ List.mem_append_right _ hw)

theorem Backlog.OK.handled {b b' : Backlog} (h : b.OK) (hhandled : Handled live b b') : b'.OK := by
  cases hhandled with
  | same => exact h
  | told hflushing =>
    exact ⟨h.flusher, nofun, h.arrivals, h.batches, h.small, h.fits⟩
  | @submit w f hsize hflush =>
    obtain ⟨hok, hplanned⟩ := hflush.ok h.flusher
    refine ⟨hok, fun _ => hplanned, ?_, h.batches, ?_, h.fits⟩
    · rw [h.arrivals, List.append_assoc]
    intro w' hw'
    rcases List.mem_append.mp hw' with hw' | hw'
    · exact h.small w' hw'
    · obtain rfl := List.mem_singleton.mp hw'
      exact hsize
  | fire hmem =>
    exact ⟨h.flusher.fire hmem, h.planned, h.arrivals, h.batches, h.small, h.fits⟩
  | stale token hstale =>
    rw [Flusher.consume_eq_of_stale hstale]
    exact ⟨Flusher.consume_eq_of_stale hstale ▸ h.flusher.consume token, h.planned, h.arrivals,
      h.batches, h.small, h.fits⟩
  | flush token hidle htaking hne =>
    refine ⟨h.flusher.consume token, nofun, ?_, ?_, htaking.small h.small, ?_⟩
    · rw [h.arrivals, htaking.writes, List.map_append, List.append_assoc]
    · rw [List.flatten_append, h.batches, proposed_append, List.flatten_singleton]
    intro batch hbatch
    rcases List.mem_append.mp hbatch with hbatch | hbatch
    · exact h.fits batch hbatch
    · obtain rfl := List.mem_singleton.mp hbatch
      exact htaking.fits hne
  | flushNone token hidle htaking hnone hflush =>
    obtain ⟨hok, hplanned⟩ := hflush.ok (h.flusher.consume token)
    refine ⟨hok, fun _ => hplanned, ?_, ?_, htaking.small h.small, h.fits⟩
    · rw [h.arrivals, htaking.writes, List.map_append, List.append_assoc]
    · rw [h.batches, proposed_append, hnone, List.append_nil]
  | endFlush hflush =>
    obtain ⟨hok, hplanned⟩ := hflush.ok h.flusher
    exact ⟨hok, fun _ => hplanned, h.arrivals, h.batches, h.small, h.fits⟩

/-! ## Connections that are gone -/

/-- A write of the connection was taken from the queue and not proposed. -/
def Dropped (journal : List (QueuedWrite × Bool)) (id : Name) : Prop :=
  ∃ e ∈ journal, e.2 = false ∧ e.1.request.connection = id

/-- The writes that a move takes from the queue. -/
theorem Handled.journal {b b' : Backlog} (h : Handled live b b') :
    ∃ taken, b'.journal = b.journal ++ taken ∧
      ∀ e ∈ taken, e.1 ∈ b.writes ∧ e.2 = live e.1.request.connection := by
  have htaken : ∀ {taken : List (QueuedWrite × Bool)} {left : List QueuedWrite},
      Taking live b.writes taken left → ∀ e ∈ taken, e.1 ∈ b.writes ∧
        e.2 = live e.1.request.connection := by
    intro taken left htaking e he
    refine ⟨?_, htaking.live e he⟩
    rw [htaking.writes]
    exact List.mem_append_left _ (List.mem_map_of_mem he)
  cases h with
  | flush token hidle htaking hne => exact ⟨_, rfl, htaken htaking⟩
  | flushNone token hidle htaking hnone hflush => exact ⟨_, rfl, htaken htaking⟩
  | _ => exact ⟨[], (List.append_nil _).symm, by simp⟩

/-- A connection with a write in the queue was established. -/
theorem InOrder.link_ne_of_mem {gone : Name → Prop} (h : s.InOrder gone) {w : QueuedWrite}
    (hw : w ∈ s.writes) : (s.connections w.request.connection).link ≠ .connecting := by
  intro hlink
  have hzero : s.inFlight w.request.connection = 0 :=
    ((h w.request.connection).fresh hlink).2.2.2
  have hrequest : w.request ∈ s.requests := by
    rw [requests]
    exact Multiset.mem_add.mpr (.inl (Multiset.mem_add.mpr (.inl (Multiset.mem_add.mpr
      (.inl (List.mem_map_of_mem hw))))))
  have hmem : w.request.number ∈ s.inFlight w.request.connection :=
    Multiset.mem_map_of_mem _ (Multiset.mem_filter.mpr ⟨hrequest, rfl⟩)
  rw [hzero] at hmem
  exact Multiset.notMem_zero _ hmem

/-- More connections are found to be gone. -/
theorem InOrder.more {gone gone' : Name → Prop} (h : s.InOrder gone)
    (hmore : ∀ id, gone' id → gone id ∨
      s.live id = false ∧ (s.connections id).link ≠ .connecting) : s.InOrder gone' := by
  intro id
  refine ⟨(h id).told, fun hlink => ?_, fun c hc hclosing => ?_⟩
  · obtain ⟨hgone, hfresh⟩ := (h id).fresh hlink
    exact ⟨fun hid => (hmore id hid).elim hgone fun hdead => hdead.2 hlink, hfresh⟩
  obtain ⟨hgone, halive⟩ := (h id).alive c hc hclosing
  refine ⟨fun hid => (hmore id hid).elim hgone fun hdead => ?_, halive⟩
  obtain ⟨session, hlookup, rfl⟩ := Option.map_eq_some_iff.mp hc
  rw [h.live hlookup hclosing] at hdead
  cases hdead.1

/-- What is known of the server. -/
structure Served (s : Server) : Prop where
  inOrder : s.InOrder (Dropped s.journal)
  backlog : s.backlog.OK

theorem Served.move (h : s.Served) (hmove : Move flags view s s') : s'.Served := by
  have hhandled := hmove.handled h.backlog.small
  refine ⟨InOrder.move (h.inOrder.more ?_) hmove, h.backlog.handled hhandled⟩
  rintro id ⟨e, he, hdropped, rfl⟩
  obtain ⟨taken, hjournal, htaken⟩ := hhandled.journal
  rw [show s'.journal = _ from hjournal] at he
  rcases List.mem_append.mp he with he | he
  · exact .inl ⟨e, he, hdropped, rfl⟩
  · obtain ⟨hmem, hlive⟩ := htaken e he
    exact .inr ⟨hlive.symm.trans hdropped, h.inOrder.link_ne_of_mem hmem⟩

theorem served_new : ({} : Server).Served :=
  ⟨inOrder_new.more (fun _ ⟨_, he, _⟩ => nomatch he),
    ⟨Flusher.ok_new, fun _ hne => absurd rfl hne, rfl, rfl, by simp [Small, Server.backlog],
      by simp [Server.backlog]⟩⟩

/-! ## Admission -/

/-- The bytes of some proposals. -/
theorem admitBytes_eq {ps : List Proposal} {bytes : ℕ}
    (h : bytes + (ps.map fun p => p.command.length).sum ≤ kMaxCommandBytes) :
    admitBytes bytes ps = some (bytes + (ps.map fun p => p.command.length).sum) := by
  induction ps generalizing bytes with
  | nil => rfl
  | cons p ps ih =>
    rw [List.map_cons, List.sum_cons] at h ⊢
    have hlimits : kMaxCommandBytes ≤ kMaxPendingBytes := by decide
    rw [admitBytes, if_neg (by omega), ih (by omega), Nat.add_assoc]

/-- A batch of the server is refused only for leadership, for the health of the storage, or
because too much is pending. -/
theorem Fits.refused {batch : List QueuedWrite} (h : Fits batch) {n : Node} {ps : List Proposal}
    (hps : ps.map Proposal.command = batch.map QueuedWrite.command) {code : ℤ}
    (hcode : n.admission ps = .error code) :
    code = -1 ∧ n.isLeader = false ∨ code = -3 ∧ n.storageHealthy = false ∨
      code = -2 ∧ (kMaxPending - n.pending.length < batch.length ∨
        kMaxPendingBytes - n.pendingBytes < bytesOf batch) := by
  have hlength : ps.length = batch.length := by
    simpa using congrArg List.length hps
  have hbytes : (ps.map fun p => p.command.length).sum = bytesOf batch := by
    have hsum := congrArg (fun commands : List Bytes => (commands.map List.length).sum) hps
    simpa only [bytesOf, List.map_map, Function.comp_def] using hsum
  have hadmit := @admitBytes_eq ps 0 (by rw [Nat.zero_add, hbytes]; exact h.size)
  have hne : ps ≠ [] := by
    rintro rfl
    exact h.ne (List.length_eq_zero_iff.mp hlength.symm)
  have hcount := h.count
  have hsize := h.size
  simp only [BatchFlushPolicy.kMaxEntries, BatchFlushPolicy.kMaxBytes] at hcount hsize
  rw [Node.admission, hadmit, Nat.zero_add, hbytes, hlength] at hcode
  by_cases hleader : n.isLeader = true
  swap
  · rw [if_pos hleader] at hcode
    exact .inl ⟨(Except.error.inj hcode).symm, by simpa using hleader⟩
  rw [if_neg (not_not.mpr hleader)] at hcode
  by_cases hhealth : n.storageHealthy = true
  swap
  · rw [if_pos hhealth] at hcode
    exact .inr (.inl ⟨(Except.error.inj hcode).symm, by simpa using hhealth⟩)
  rw [if_neg (not_not.mpr hhealth)] at hcode
  refine .inr (.inr ?_)
  split_ifs at hcode with hfull
  · refine ⟨(Except.error.inj hcode).symm, .inl ?_⟩
    simpa [hne, kMaxBatchEntries, not_lt.mpr hcount] using hfull
  dsimp only at hcode
  split_ifs at hcode with hroom
  refine ⟨(Except.error.inj hcode).symm, .inr (hroom.resolve_right (not_lt.mpr ?_))⟩
  simp only [kMaxBatchBytes]
  omega

/-! ## Runs -/

/-- **No queued write is stranded or flushed twice.** After any events : while writes are queued
and no flush runs, one callback or timer carries the current token, and it is accepted; a callback
with another token changes nothing but that it has run. The writes that arrived are those taken
from the queue, in their order, and those still in it; those proposed are, in their order, all
that were taken but some whose connection is gone. A batch has 1 to 128 writes, is within the
limit of `ProposeBatch`, and is refused there only for leadership, health or pending capacity. -/
theorem writes_flushed_once (flags : Flags) (events : List (View × Event)) (s : Server)
    (h : run flags {} events = .ok s) :
    (s.flushing = none → s.writes ≠ [] →
      (s.flusher.queued ++ s.flusher.armed).count s.flusher.policy.generation = 1 ∧
        (s.flusher.consume s.flusher.policy.generation).1 = true) ∧
    (∀ (view : View) (token : ℕ) (index : ℤ), s.flushing = none → token ∈ s.flusher.queued →
      s.flusher.policy.pending = .none ∨ token ≠ s.flusher.policy.generation →
      step flags s (view, .flush token index) =
        .ok (s.setFlusher { s.flusher with queued := s.flusher.queued.erase token })) ∧
    s.arrivals = s.journal.map Prod.fst ++ s.writes ∧
    s.batches.flatten = (s.journal.filter Prod.snd).map Prod.fst ∧
    (∀ e ∈ s.journal, s.live e.1.request.connection = true → e.2 = true) ∧
    ∀ batch ∈ s.batches, 1 ≤ batch.length ∧ batch.length ≤ 128 ∧
      bytesOf batch ≤ kMaxBatchBytes - 128 - batch.length * 64 ∧
      ∀ (n : Node) (ps : List Proposal), ps.map Proposal.command = batch.map QueuedWrite.command →
        ∀ code, n.admission ps = .error code →
          code = -1 ∧ n.isLeader = false ∨ code = -3 ∧ n.storageHealthy = false ∨
            code = -2 ∧ (kMaxPending - n.pending.length < batch.length ∨
              kMaxPendingBytes - n.pendingBytes < bytesOf batch) := by
  have hserved : s.Served := run_invariant (fun h hmove => h.move hmove) served_new h
  refine ⟨fun hidle hwrites =>
      hserved.backlog.flusher.count (hserved.backlog.planned hidle hwrites),
    fun view token index hidle hmem hstale => ?_, hserved.backlog.arrivals, hserved.backlog.batches,
    fun e he hlive => ?_, fun batch hbatch => ?_⟩
  · rw [step, if_neg (by simp [hidle]), handle, if_pos hmem, runFlush,
      Flusher.consume_of_stale hstale]
    rfl
  · by_contra hdropped
    obtain ⟨-, -, -, hgone, -⟩ := hserved.inOrder.alive hlive
    exact hgone ⟨e, he, by simpa using hdropped, rfl⟩
  · have hfits := hserved.backlog.fits batch hbatch
    have hcount := hfits.count
    have hsize := hfits.size
    simp only [BatchFlushPolicy.kMaxEntries, BatchFlushPolicy.kMaxBytes] at hcount hsize
    refine ⟨List.length_pos_iff.mpr hfits.ne, hcount, ?_, fun n ps hps code hcode =>
      hfits.refused hps hcode⟩
    simp only [kMaxBatchBytes]
    omega

/-- A client connects to a leader and sends two writes; the timer of the first one fires, and it is
proposed and done, so that the second one is put into the queue. -/
def flushEvents : List (View × Event) :=
  let view : View := { isLeader := true }
  [(view, .connect 1),
   (view, .message 1 (ascii "*3\r\n$3\r\nSET\r\n$1\r\na\r\n$1\r\nb\r\n")),
   (view, .message 1 (ascii "*2\r\n$3\r\nDEL\r\n$1\r\na\r\n")),
   (view, .timer 1), (view, .flush 1 1), (view, .proposalDone 0 (ascii "+OK\r\n")),
   (view, .resume)]

/-- The first write was proposed in a batch, and one timer will flush the second. -/
theorem writes_flushed_once_two : ∃ s, run {} {} flushEvents = .ok s ∧
    s.batches.flatten.length = 1 ∧ s.writes.length = 1 ∧ s.flusher.armed = [2] ∧
    (s.flusher.queued ++ s.flusher.armed).count s.flusher.policy.generation = 1 ∧
    ∀ batch ∈ s.batches, batch.length ≤ 128 := by
  obtain ⟨s, hok, hvalues⟩ := exists_ok_of_any (x := run {} {} flushEvents) (p := fun s =>
    s.batches.flatten.length = 1 ∧ s.writes.length = 1 ∧ s.flusher.armed = [2] ∧
      s.flushing = none) (by decide +kernel)
  simp only [decide_eq_true_eq] at hvalues
  obtain ⟨hbatches, hwrites, harmed, hidle⟩ := hvalues
  obtain ⟨hcurrent, -, -, -, -, hfits⟩ := writes_flushed_once {} flushEvents s hok
  refine ⟨s, hok, hbatches, hwrites, harmed, (hcurrent hidle ?_).1, fun batch hbatch =>
    (hfits batch hbatch).2.1⟩
  intro hnil
  rw [hnil] at hwrites
  cases hwrites

end Server

end RaftKV
