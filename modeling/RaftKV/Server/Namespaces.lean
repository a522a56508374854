import RaftKV.Idempotence
import RaftKV.Server.Writes

/-!
# Namespaces

Clients issue writes and `GET`s on connections with a namespace. The keys of different namespaces
are different, and none is the marker or the key of a session record (`namespacedKey_inj`,
`namespacedKey_ne`). What the connections outside a namespace `A` are told does not depend on the
writes in `A` as long as the clients of the idempotent writes in `A` are others than those outside
(`observe_filter`). The records of clients are not kept by namespace : a client id that is used in
`A` and outside is one client.
-/

namespace RaftKV

open Faulty (Opened)

/-! ## What a command touches -/

/-- The keys that a command reads or writes. -/
def Command.touches : Command → List Bytes
  | .noop => []
  | .write op => [op.key]
  | .idemp client _ op => [op.key, clientSessionKey client]

theorem WriteOp.run_frame (db : DB) {op : WriteOp} {a : Bytes} (h : a ≠ op.key) :
    (op.run db).1[a]? = db[a]? := by
  cases op with
  | set key value => exact (DB.getElem?_insert_eq _ _ _ _).trans (if_neg h.symm)
  | del key => exact (DB.getElem?_erase_eq _ _ _).trans (if_neg h.symm)

theorem Command.run_frame (db : DB) {c : Command} {a : Bytes} (h : a ∉ c.touches) :
    (c.run db).1[a]? = db[a]? := by
  cases c with
  | noop => rfl
  | write op => exact op.run_frame db (List.ne_of_not_mem_cons h)
  | idemp client id op =>
    have hkey : a ≠ op.key := List.ne_of_not_mem_cons h
    have hsession : a ≠ clientSessionKey client :=
      List.ne_of_not_mem_cons (List.not_mem_of_not_mem_cons h)
    rw [Command.run]
    split_ifs
    · rfl
    · rfl
    · rw [DB.getElem?_insert_eq, if_neg hsession.symm]
      exact op.run_frame db hkey

/-- Two databases that agree on some keys. -/
def Agree (P : Bytes → Prop) (db db' : DB) : Prop :=
  ∀ a, P a → db[a]? = db'[a]?

section Agree

variable {P : Bytes → Prop} {db db' : DB}

theorem Agree.insert (h : Agree P db db') (key value : Bytes) :
    Agree P (db.insert key value) (db'.insert key value) := by
  intro a ha
  rw [DB.getElem?_insert_eq, DB.getElem?_insert_eq, h a ha]

theorem Agree.write (h : Agree P db db') {op : WriteOp} (hop : P op.key) :
    (op.run db).2 = (op.run db').2 ∧ Agree P (op.run db).1 (op.run db').1 := by
  cases op with
  | set key value => exact ⟨rfl, h.insert key value⟩
  | del key =>
    have hkey : db[key]? = db'[key]? := h key hop
    refine ⟨?_, fun a ha => ?_⟩
    · rw [WriteOp.run, WriteOp.run, contains_eq_isSome, contains_eq_isSome, hkey]
    · rw [WriteOp.run, WriteOp.run, DB.getElem?_erase_eq, DB.getElem?_erase_eq, h a ha]

/-- **A command sees only what it touches.** -/
theorem Agree.run (h : Agree P db db') {c : Command} (hc : ∀ a ∈ c.touches, P a) :
    (c.run db).2 = (c.run db').2 ∧ Agree P (c.run db).1 (c.run db').1 := by
  cases c with
  | noop => exact ⟨rfl, h⟩
  | write op => exact h.write (hc _ List.mem_cons_self)
  | idemp client id op =>
    have hsession : sessionOf db client = sessionOf db' client :=
      sessionOf_congr (h _ (hc _ (by simp [Command.touches])))
    obtain ⟨hreply, hwrite⟩ := h.write (hc _ List.mem_cons_self)
    rw [Command.run, Command.run, hsession]
    split_ifs
    · exact ⟨rfl, h⟩
    · exact ⟨rfl, h⟩
    · rw [hreply]
      exact ⟨rfl, hwrite.insert _ _⟩

end Agree

namespace Server

/-! ## Keys -/

/-- The name of a namespace that `SELECT` accepts. -/
abbrev Namespace := { ns : Bytes // isValidName ns = true }

/-- `NamespaceManager::MakeKey`, for a namespace. -/
def namespacedKey (ns : Namespace) (key : Bytes) : Bytes :=
  ns ++ ascii ":" ++ key

theorem makeKey_eq {s : Server} {id : Name} {ns : Namespace}
    (h : (s.namespaces id).getD (ascii "default") = ns) : s.makeKey id = namespacedKey ns := by
  funext key
  rw [makeKey, namespacedKey, h]

theorem separator_notMem (ns : Namespace) : (58 : UInt8) ∉ ns.1 := by
  obtain ⟨ns, h⟩ := ns
  intro hmem
  simp only [isValidName, Bool.and_eq_true, List.all_eq_true] at h
  exact absurd (h.2 58 hmem) (by decide)

theorem takeWhile_namespacedKey (ns : Namespace) (key : Bytes) :
    (namespacedKey ns key).takeWhile (· ≠ 58) = ns.1 := by
  have hall : ∀ c ∈ ns.1, decide (c ≠ 58) = true := fun c hc =>
    decide_eq_true fun h => separator_notMem ns (h ▸ hc)
  rw [namespacedKey, List.append_assoc, List.takeWhile_append_of_pos hall]
  exact List.append_nil _

/-- **Keys of different namespaces are different**, whatever bytes they have. -/
theorem namespacedKey_inj {ns ns' : Namespace} {key key' : Bytes}
    (h : namespacedKey ns key = namespacedKey ns' key') : ns = ns' := by
  refine Subtype.ext ?_
  rw [← takeWhile_namespacedKey ns key, h, takeWhile_namespacedKey]

theorem userKey_namespacedKey (ns : Namespace) (key : Bytes) : UserKey (namespacedKey ns key) :=
  userKey_of_isValidName ns.2 key

/-! ## Commands of clients -/

/-- A write that was let pass : its arguments are those of a write and it is not too large. -/
structure Write where
  ns : Namespace
  args : List Bytes
  command : Command
  means : Means args command
  size : (serializeCommand (args.modify (writeKeyIndex args) (namespacedKey ns))).length ≤
    kMaxCommandBytes

/-- The entry of a write. -/
def Write.bytes (w : Write) : Bytes :=
  serializeCommand (w.args.modify (writeKeyIndex w.args) (namespacedKey w.ns))

/-- The write to the key in the namespace. -/
def Write.target (w : Write) : Command :=
  w.command.mapKey (namespacedKey w.ns)

/-- A command of a client. -/
inductive Issue where
  | write (w : Write)
  | get (ns : Namespace) (key : Bytes)

/-- The namespace of a command. -/
def Issue.ns : Issue → Namespace
  | .write w => w.ns
  | .get ns _ => ns

/-- What a client is told. -/
inductive Answer where
  | reply (reply : Bytes)
  | value (value : Option Bytes)
  deriving DecidableEq

/-- What the state machine does next : a batch of writes, or a `GET`. -/
inductive Turn where
  | batch (writes : List Write)
  | get (ns : Namespace) (key : Bytes)

/-- The commands of a turn. -/
def Turn.issues : Turn → List Issue
  | .batch writes => writes.map .write
  | .get ns key => [.get ns key]

/-- The answers, each with the namespace it goes to. -/
def serve : List Turn → Store → Except String (List (Namespace × Answer))
  | [], _ => .ok []
  | .get ns key :: turns, s => do
    let rest ← serve turns s
    return (ns, .value (s.get (namespacedKey ns key))) :: rest
  | .batch writes :: turns, s =>
    match applyBatch true (s.lastApplied + 1) (writes.map Write.bytes) s with
    | .error message _ => .error message
    | .ok replies s' => do
      let rest ← serve turns s'
      return List.zipWith (fun w reply => (w.ns, .reply reply)) writes replies ++ rest

/-- The answers to commands one at a time. -/
def observe : DB → List Issue → List (Namespace × Answer)
  | _, [] => []
  | db, .get ns key :: issues => (ns, .value db[namespacedKey ns key]?) :: observe db issues
  | db, .write w :: issues =>
    (w.ns, .reply (w.target.run db).2) :: observe (w.target.run db).1 issues

/-! ## Batches are commands one at a time -/

theorem Write.decodes (w : Write) : decodeCommand w.bytes = some w.target ∧ w.target.Valid :=
  ⟨((w.means.modify _).decode w.size).2, Command.valid_mapKey (userKey_namespacedKey w.ns) _⟩

theorem decodes_writes (writes : List Write) :
    Decodes (writes.map Write.bytes) (writes.map Write.target) := by
  induction writes with
  | nil => exact .nil
  | cons w writes ih => exact .cons w.decodes ih

theorem observe_writes (writes : List Write) (issues : List Issue) (db : DB) :
    observe db (writes.map .write ++ issues) =
      List.zipWith (fun w reply => (w.ns, .reply reply)) writes
          (runAll db (writes.map Write.target)).2 ++
        observe (runAll db (writes.map Write.target)).1 issues := by
  induction writes generalizing db with
  | nil => rfl
  | cons w writes ih =>
    rw [List.map_cons, List.cons_append, observe, ih]
    rfl

/-- **The answers are those to the commands one at a time.** -/
theorem serve_eq {turns : List Turn} {s : Store} (hs : Opened s) (hok : SessionsOk s.contents)
    {answers : List (Namespace × Answer)} (h : serve turns s = .ok answers) :
    answers = observe s.contents (turns.flatMap Turn.issues) := by
  induction turns generalizing s answers with
  | nil => exact (Except.ok.inj h).symm
  | cons turn turns ih =>
    cases turn with
    | get ns key =>
      rw [serve] at h
      cases hrest : serve turns s with
      | error message =>
        rw [hrest] at h
        cases h
      | ok rest =>
        rw [hrest] at h
        rw [← Except.ok.inj h, ih hs hok hrest, Store.get,
          ← s.getElem?_contents (userKey_namespacedKey ns key).ne_appliedKey]
        rfl
    | batch writes =>
      rw [serve] at h
      split at h
      · cases h
      next replies s' happly =>
      obtain ⟨hs', hreplies, hcontents⟩ :=
        applyBatch_contents hs hok (decodes_writes writes) happly
      cases hrest : serve turns s' with
      | error message =>
        rw [hrest] at h
        cases h
      | ok rest =>
        rw [hrest] at h
        have hok' : SessionsOk s'.contents := hcontents ▸ hok.runAll (decodes_writes writes).valid
        rw [← Except.ok.inj h, ih hs' hok' hrest, hreplies, hcontents]
        exact (observe_writes writes _ _).symm

/-- Every write in a batch of its own. -/
def Issue.turn : Issue → Turn
  | .write w => .batch [w]
  | .get ns key => .get ns key

theorem issues_turns (issues : List Issue) :
    (issues.map Issue.turn).flatMap Turn.issues = issues := by
  induction issues with
  | nil => rfl
  | cons issue issues ih =>
    rw [List.map_cons, List.flatMap_cons, ih]
    cases issue <;> rfl

/-- Commands are served as long as the indexes are `int64` values. -/
theorem exists_serve (issues : List Issue) {s : Store} (hs : Opened s)
    (hok : SessionsOk s.contents) (hmax : s.lastApplied + issues.length ≤ int64Max) :
    ∃ answers, serve (issues.map Issue.turn) s = .ok answers := by
  induction issues generalizing s with
  | nil => exact ⟨[], rfl⟩
  | cons issue issues ih =>
    rw [List.length_cons, Nat.cast_add, Nat.cast_one] at hmax
    cases issue with
    | get ns key =>
      obtain ⟨answers, hanswers⟩ := ih hs hok (by omega)
      rw [List.map_cons, Issue.turn, serve, hanswers]
      exact ⟨_, rfl⟩
    | write w =>
      have hrun := applyBatch_eq_runAll s (Store.sessionsOk_contents.mp hok) (decodes_writes [w])
        (by simp) (by simp only [List.map_cons, List.map_nil, List.length_singleton]; omega)
      obtain ⟨hs', -, hcontents⟩ := applyBatch_contents hs hok (decodes_writes [w]) hrun
      obtain ⟨answers, hanswers⟩ := ih hs'
        (hcontents ▸ hok.runAll (decodes_writes [w]).valid)
        (by simp only [List.map_cons, List.map_nil, List.length_singleton]; omega)
      rw [List.map_cons, Issue.turn, serve, hrun]
      dsimp only
      rw [hanswers]
      exact ⟨_, rfl⟩

/-! ## What the others are told -/

/-- The client of an idempotent write. -/
def Write.client (w : Write) : Option Bytes :=
  match w.command with
  | .idemp client _ _ => some client
  | _ => none

/-- All commands but the writes in `A`. -/
def visible (A : Namespace) : Issue → Bool
  | .write w => w.ns ≠ A
  | .get _ _ => true

/-- The answers to connections in other namespaces. -/
def outside (A : Namespace) (answers : List (Namespace × Answer)) : List (Namespace × Answer) :=
  answers.filter fun answer => answer.1 ≠ A

/-- No client id is used by idempotent writes both in `A` and outside. -/
def Apart (A : Namespace) (issues : List Issue) : Prop :=
  ∀ v w, .write v ∈ issues → .write w ∈ issues → v.ns = A → w.ns ≠ A →
    ∀ client, v.client = some client → w.client ≠ some client

/-- The keys that commands outside `A` touch : those of the other namespaces, and the records of
the clients there. -/
def Shown (A : Namespace) (clients : Bytes → Prop) (a : Bytes) : Prop :=
  (∃ ns key, ns ≠ A ∧ a = namespacedKey ns key) ∨
    ∃ client, clients client ∧ a = clientSessionKey client

theorem Write.mem_touches {w : Write} {a : Bytes} (h : a ∈ w.target.touches) :
    (∃ key, a = namespacedKey w.ns key) ∨
      ∃ client, w.client = some client ∧ a = clientSessionKey client := by
  rw [Write.target] at h
  rw [Write.client]
  generalize w.command = c at h ⊢
  rcases c with _ | ⟨_ | _⟩ | ⟨client, id, _ | _⟩
  · cases h
  · exact .inl ⟨_, List.mem_singleton.mp h⟩
  · exact .inl ⟨_, List.mem_singleton.mp h⟩
  all_goals
    rcases List.mem_cons.mp h with h | h
    · exact .inl ⟨_, h⟩
    · exact .inr ⟨client, rfl, List.mem_singleton.mp h⟩

section Others

variable {A : Namespace} {clients : Bytes → Prop} {w : Write}

theorem Write.shown_of_ne (hne : w.ns ≠ A)
    (hclient : ∀ client, w.client = some client → clients client) :
    ∀ a ∈ w.target.touches, Shown A clients a := by
  intro a ha
  rcases w.mem_touches ha with ⟨key, rfl⟩ | ⟨client, hw, rfl⟩
  · exact .inl ⟨w.ns, key, hne, rfl⟩
  · exact .inr ⟨client, hclient client hw, rfl⟩

theorem Write.not_shown (heq : w.ns = A)
    (hclient : ∀ client, w.client = some client → ¬clients client) {a : Bytes}
    (ha : a ∈ w.target.touches) : ¬Shown A clients a := by
  rcases w.mem_touches ha with ⟨key, rfl⟩ | ⟨client, hw, rfl⟩
  · rintro (⟨ns, key', hne, h⟩ | ⟨client, -, h⟩)
    · exact hne ((namespacedKey_inj h).symm.trans heq)
    · exact (userKey_namespacedKey w.ns key).ne_clientSessionKey client h
  · rintro (⟨ns, key', -, h⟩ | ⟨client', hshown, h⟩)
    · exact (userKey_namespacedKey ns key').ne_clientSessionKey client h.symm
    · exact hclient client hw (clientSessionKey_inj h ▸ hshown)

theorem Write.agree_run (heq : w.ns = A)
    (hclient : ∀ client, w.client = some client → ¬clients client) {db db' : DB}
    (h : Agree (Shown A clients) db db') : Agree (Shown A clients) (w.target.run db).1 db' := by
  intro a ha
  rw [Command.run_frame db fun hmem => w.not_shown heq hclient hmem ha]
  exact h a ha

/-- **The others are told what they are told without the writes in `A`.** -/
theorem outside_observe {issues : List Issue}
    (hin : ∀ w, .write w ∈ issues → w.ns = A → ∀ client, w.client = some client → ¬clients client)
    (hout : ∀ w, .write w ∈ issues → w.ns ≠ A → ∀ client, w.client = some client → clients client)
    {db db' : DB} (h : Agree (Shown A clients) db db') :
    outside A (observe db issues) = outside A (observe db' (issues.filter (visible A))) := by
  induction issues generalizing db db' with
  | nil => rfl
  | cons issue issues ih =>
    have hin' := fun w hw => hin w (List.mem_cons_of_mem issue hw)
    have hout' := fun w hw => hout w (List.mem_cons_of_mem issue hw)
    cases issue with
    | get ns key =>
      rw [List.filter_cons_of_pos rfl, observe, observe, outside, outside]
      by_cases hns : ns = A
      · rw [List.filter_cons_of_neg (by simpa using hns),
          List.filter_cons_of_neg (by simpa using hns)]
        exact ih hin' hout' h
      · rw [List.filter_cons_of_pos (by simpa using hns),
          List.filter_cons_of_pos (by simpa using hns), h _ (.inl ⟨ns, key, hns, rfl⟩)]
        exact congrArg _ (ih hin' hout' h)
    | write w =>
      by_cases hns : w.ns = A
      · rw [List.filter_cons_of_neg (by simpa [visible] using hns), observe, outside,
          List.filter_cons_of_neg (by simpa using hns)]
        exact ih hin' hout' (w.agree_run hns (hin w List.mem_cons_self hns) h)
      obtain ⟨hreply, hagree⟩ := h.run (w.shown_of_ne hns (hout w List.mem_cons_self hns))
      rw [List.filter_cons_of_pos (by simpa [visible] using hns), observe, observe, outside,
        outside, List.filter_cons_of_pos (by simpa using hns),
        List.filter_cons_of_pos (by simpa using hns), hreply]
      exact congrArg _ (ih hin' hout' hagree)

end Others

/-- The clients of idempotent writes outside `A`. -/
def clientsOutside (A : Namespace) (issues : List Issue) (client : Bytes) : Prop :=
  ∃ w, .write w ∈ issues ∧ w.ns ≠ A ∧ w.client = some client

theorem Apart.outside_observe {A : Namespace} {issues : List Issue} (h : Apart A issues) (db : DB) :
    outside A (observe db issues) = outside A (observe db (issues.filter (visible A))) := by
  refine @Server.outside_observe A (clientsOutside A issues) issues ?_ ?_ db db fun _ _ => rfl
  · rintro v hv heq client hclient ⟨w, hw, hne, hwclient⟩
    exact h v w hv hw heq hne client hclient hwclient
  · intro w hw hne client hclient
    exact ⟨w, hw, hne, hclient⟩

theorem opened_new : Opened ⟨∅, 0⟩ := by
  decide

theorem contents_new : Store.contents ⟨∅, 0⟩ = ∅ :=
  DB.erase_marker (by simp)

/-- The answers to commands that an empty machine serves. -/
theorem serve_new {turns : List Turn} {answers : List (Namespace × Answer)}
    (h : serve turns ⟨∅, 0⟩ = .ok answers) : answers = observe ∅ (turns.flatMap Turn.issues) := by
  have heq := serve_eq opened_new (by rw [contents_new]; exact sessionsOk_empty) h
  rwa [contents_new] at heq

/-! ## One client in two namespaces -/

/-- The contents after some commands. -/
def contentsAfter : DB → List Issue → DB
  | db, [] => db
  | db, .get _ _ :: issues => contentsAfter db issues
  | db, .write w :: issues => contentsAfter (w.target.run db).1 issues

theorem observe_append (db : DB) (xs ys : List Issue) :
    observe db (xs ++ ys) = observe db xs ++ observe (contentsAfter db xs) ys := by
  induction xs generalizing db with
  | nil => rfl
  | cons issue xs ih =>
    cases issue with
    | get ns key => rw [List.cons_append, observe, observe, contentsAfter, ih]; rfl
    | write w => rw [List.cons_append, observe, observe, contentsAfter, ih]; rfl

/-- To whom the answers go does not depend on the contents. -/
theorem map_fst_observe (db : DB) (issues : List Issue) :
    (observe db issues).map Prod.fst = issues.map Issue.ns := by
  induction issues generalizing db with
  | nil => rfl
  | cons issue issues ih =>
    cases issue with
    | get ns key => rw [observe, List.map_cons, List.map_cons, ih]; rfl
    | write w => rw [observe, List.map_cons, List.map_cons, ih]; rfl

theorem length_outside (A : Namespace) (db : DB) (issues : List Issue) :
    (outside A (observe db issues)).length =
      ((issues.map Issue.ns).filter fun ns => ns ≠ A).length := by
  rw [← map_fst_observe db, List.filter_map, List.length_map]
  rfl

/-- Writes without a client leave the records. -/
theorem sessionOf_contentsAfter {issues : List Issue}
    (h : ∀ w, .write w ∈ issues → w.client = none) (db : DB) (client : Bytes) :
    sessionOf (contentsAfter db issues) client = sessionOf db client := by
  induction issues generalizing db with
  | nil => rfl
  | cons issue issues ih =>
    have ih' := ih fun w hw => h w (List.mem_cons_of_mem _ hw)
    cases issue with
    | get ns key => exact ih' db
    | write w =>
      rw [contentsAfter, ih']
      refine sessionOf_congr (Command.run_frame db fun hmem => ?_)
      rcases w.mem_touches hmem with ⟨key, hkey⟩ | ⟨client', hclient, -⟩
      · exact (userKey_namespacedKey w.ns key).ne_clientSessionKey client hkey.symm
      · rw [h w List.mem_cons_self] at hclient
        cases hclient

theorem length_decimal_le {n k : ℕ} (hk : 0 < k) (h : n < 10 ^ k) : (decimal n).length ≤ k := by
  rw [decimal, List.length_map, Nat.length_toDigits_le_iff (by decide) hk]
  exact h

/-- A few short arguments make a short command. -/
theorem length_serializeCommand_le {args : List Bytes} (hcount : args.length ≤ 6)
    (h : ∀ arg ∈ args, arg.length ≤ 128) : (serializeCommand args).length ≤ kMaxCommandBytes := by
  have hdecimal : (decimal args.length).length ≤ 1 := length_decimal_le (by decide) (by omega)
  have hbulk : ∀ arg ∈ args, (bulk arg).length ≤ 136 := by
    intro arg harg
    have hle := h arg harg
    have hdigits : (decimal arg.length).length ≤ 3 := length_decimal_le (by decide) (by omega)
    simp only [bulk, List.length_append, List.length_cons, List.length_nil]
    omega
  have hsum : (args.map fun arg => (bulk arg).length).sum ≤ args.length * 136 := by
    simpa using List.sum_le_card_nsmul (args.map fun arg => (bulk arg).length) 136
      (by simpa using hbulk)
  simp only [serializeCommand, List.length_append, List.length_cons, List.length_nil,
    List.length_flatMap, kMaxCommandBytes]
  omega

theorem length_of_parseRequestId {request : Bytes} {id : ℕ} (h : parseRequestId request = some id) :
    request.length ≤ 20 := by
  rw [parseRequestId] at h
  split_ifs at h with hcheck
  push Not at hcheck
  exact hcheck.2.1

theorem length_namespacedKey_nil (ns : Namespace) : (namespacedKey ns []).length ≤ 64 := by
  obtain ⟨ns, h⟩ := ns
  simp only [isValidName, Bool.and_eq_true, decide_eq_true_eq] at h
  simp only [namespacedKey, List.length_append, List.length_nil]
  have hcolon : (ascii ":").length = 1 := rfl
  omega

/-- A write in `A` with the client and the request id of another one, and with the other
operation. -/
theorem exists_opposite (A : Namespace) {w : Write} {client : Bytes} (h : w.client = some client) :
    ∃ (v : Write) (id : ℕ) (op op' : WriteOp), v.ns = A ∧ 0 < id ∧ id ≤ uint64Max ∧
      w.target = .idemp client id op ∧ v.target = .idemp client id op' ∧
      ∀ db db', (op.run db).2 ≠ (op'.run db').2 := by
  have hns := length_namespacedKey_nil A
  obtain ⟨ns, args, command, means, size⟩ := w
  cases means with
  | set key value => cases h
  | del key => cases h
  | @idempSet client' request op id key value hclient hlength hid hop =>
    obtain rfl : client' = client := Option.some.inj h
    have hrange := parseRequestId_range hid
    have hrequest := length_of_parseRequestId hid
    refine ⟨⟨A, [ascii "IDEMP", client', request, ascii "DEL", []], _,
      .idempDel [] hclient hlength hid (by decide), length_serializeCommand_le (by simp) ?_⟩,
      id, _, .del (namespacedKey A []), rfl, hrange.1, hrange.2, rfl, rfl, ?_⟩
    · show ∀ arg ∈ [ascii "IDEMP", client', request, ascii "DEL", namespacedKey A []],
        arg.length ≤ 128
      simp only [List.forall_mem_cons]
      exact ⟨by decide, hlength, by omega, by decide, by omega, by simp⟩
    · intro db db'
      exact (deleteReply_ne_okReply _).symm
  | @idempDel client' request op id key hclient hlength hid hop =>
    obtain rfl : client' = client := Option.some.inj h
    have hrange := parseRequestId_range hid
    have hrequest := length_of_parseRequestId hid
    refine ⟨⟨A, [ascii "IDEMP", client', request, ascii "SET", [], []], _,
      .idempSet [] [] hclient hlength hid (by decide), length_serializeCommand_le (by simp) ?_⟩,
      id, _, .set (namespacedKey A []) [], rfl, hrange.1, hrange.2, rfl, rfl, ?_⟩
    · show ∀ arg ∈ [ascii "IDEMP", client', request, ascii "SET", namespacedKey A [], []],
        arg.length ≤ 128
      simp only [List.forall_mem_cons]
      exact ⟨by decide, hlength, by omega, by decide, by omega, by simp, by simp⟩
    · intro db db'
      exact deleteReply_ne_okReply _

/-- A write outside `A` is given another reply if that write comes before. -/
theorem exists_clash (A : Namespace) {w : Write} {client : Bytes} (h : w.client = some client) :
    ∃ v : Write, v.ns = A ∧ ∀ pre, (∀ u, .write u ∈ pre → u.client = none) →
      (w.target.run (contentsAfter ∅ pre)).2 ≠
        (w.target.run (contentsAfter (v.target.run ∅).1 pre)).2 := by
  obtain ⟨v, id, op, op', hv, hpos, hid, hw, hvt, hdiffer⟩ := exists_opposite A h
  refine ⟨v, hv, fun pre hplain hreply => ?_⟩
  have hfresh : sessionOf ∅ client = {} := by simp [sessionOf]
  have hold : sessionOf (contentsAfter ∅ pre) client = {} :=
    (sessionOf_contentsAfter hplain ∅ client).trans hfresh
  have hexec : v.target.run ∅ = ((op'.run ∅).1.insert (clientSessionKey client)
      (encodeSession id (op'.run ∅).2), (op'.run ∅).2) := by
    rw [hvt, Command.run, hfresh, if_neg (Nat.not_lt_zero _), if_neg hpos.ne']
  have hnew : sessionOf (contentsAfter (v.target.run ∅).1 pre) client = ⟨id, (op'.run ∅).2⟩ := by
    rw [sessionOf_contentsAfter hplain, hexec, sessionOf_insert_session _ _ hid]
  rw [hw, Command.run, Command.run, hold, hnew, if_neg (Nat.not_lt_zero _), if_neg hpos.ne',
    if_neg (lt_irrefl _), if_pos rfl] at hreply
  exact hdiffer _ _ hreply

/-- What the others are told is the same for every two histories with these commands besides the
writes in `A`. -/
def Independent (A : Namespace) (base : List Issue) : Prop :=
  ∀ turns turns' answers answers',
    (turns.flatMap Turn.issues).filter (visible A) = base →
    (turns'.flatMap Turn.issues).filter (visible A) = base →
    serve turns ⟨∅, 0⟩ = .ok answers → serve turns' ⟨∅, 0⟩ = .ok answers' →
      outside A answers = outside A answers'

/-- Without idempotent writes outside `A`, every history is apart. -/
theorem independent_of_plain {A : Namespace} {base : List Issue}
    (h : ∀ w, .write w ∈ base → w.client = none) : Independent A base := by
  have hapart : ∀ turns : List Turn, (turns.flatMap Turn.issues).filter (visible A) = base →
      Apart A (turns.flatMap Turn.issues) := by
    intro turns hbase v w _ hw _ hne client _ hclient
    have hmem : .write w ∈ base := hbase ▸ List.mem_filter.mpr ⟨hw, by simpa [visible] using hne⟩
    rw [h w hmem] at hclient
    cases hclient
  intro turns turns' answers answers' hbase hbase' hserve hserve'
  rw [serve_new hserve, serve_new hserve', (hapart turns hbase).outside_observe, hbase,
    (hapart turns' hbase').outside_observe, hbase']

/-- **With an idempotent write outside `A` a write in `A` can show** : the first such write is given
the reply of a write in `A` with its client and request id. -/
theorem plain_of_independent {A : Namespace} {base : List Issue}
    (hvisible : ∀ issue ∈ base, visible A issue = true) (hmax : (base.length : ℤ) < int64Max)
    (h : Independent A base) : ∀ w, .write w ∈ base → w.client = none := by
  by_contra hnot
  push Not at hnot
  let p : Issue → Bool := fun
    | .write w => w.client.isSome
    | .get _ _ => false
  obtain ⟨first, hfirst⟩ : ∃ issue, base.find? p = some issue := by
    obtain ⟨w, hw, hclient⟩ := hnot
    refine Option.isSome_iff_exists.mp (List.find?_isSome.mpr ⟨.write w, hw, ?_⟩)
    exact Option.isSome_iff_ne_none.mpr hclient
  obtain ⟨hp, pre, post, rfl, hpre⟩ := List.find?_eq_some_iff_append.mp hfirst
  cases first with
  | get ns key => cases hp
  | write w =>
    obtain ⟨client, hclient⟩ := Option.isSome_iff_exists.mp hp
    have hns : w.ns ≠ A := by simpa [visible] using hvisible (.write w) (by simp)
    have hplain : ∀ v, .write v ∈ pre → v.client = none := by
      intro v hv
      simpa [p] using hpre _ hv
    obtain ⟨v, hv, hclash⟩ := exists_clash A hclient
    have hfilter : (pre ++ .write w :: post).filter (visible A) = pre ++ .write w :: post :=
      List.filter_eq_self.mpr hvisible
    have hempty : SessionsOk (Store.contents ⟨∅, 0⟩) := by
      rw [contents_new]
      exact sessionsOk_empty
    obtain ⟨answers, hserve⟩ := exists_serve (pre ++ .write w :: post) opened_new hempty
      (by dsimp only; omega)
    obtain ⟨answers', hserve'⟩ := exists_serve (.write v :: (pre ++ .write w :: post)) opened_new
      hempty (by rw [List.length_cons]; push_cast; omega)
    have heq := h _ _ answers answers' (by rw [issues_turns, hfilter])
      (by rw [issues_turns, List.filter_cons_of_neg (by simpa [visible] using hv), hfilter])
      hserve hserve'
    rw [serve_new hserve, serve_new hserve', issues_turns, issues_turns, observe, observe_append,
      observe_append, outside, outside, List.filter_cons_of_neg (by simpa using hv),
      List.filter_append, List.filter_append] at heq
    have hrest := (List.append_inj heq (by
      rw [← outside, ← outside, length_outside, length_outside])).2
    rw [observe, observe, List.filter_cons_of_pos (by simpa using hns),
      List.filter_cons_of_pos (by simpa using hns)] at hrest
    exact hclash pre hplain (by simpa using (List.cons.inj hrest).1)

/-- A command that the server submits as a write is one of these. -/
theorem exists_write {s : Server} {id : Name} {ns : Namespace} {args : List Bytes}
    (hns : (s.namespaces id).getD (ascii "default") = ns)
    (hwrite : (classifyCommand args).type = .write)
    (hsize : (s.writeCommand id args).length ≤ kMaxCommandBytes) :
    ∃ w : Write, w.ns = ns ∧ w.args = args ∧ s.writeCommand id args = w.bytes := by
  obtain ⟨c, hmeans⟩ := exists_means hwrite
  rw [writeCommand, makeKey_eq hns] at hsize
  refine ⟨⟨ns, args, c, hmeans, hsize⟩, rfl, rfl, ?_⟩
  rw [writeCommand, makeKey_eq hns]
  rfl

/-- **Namespaces and clients.** Take any two histories that differ only in the writes in `A`,
batched in any way. If in both no client id is used by idempotent writes in `A` and outside, the
connections outside `A` are given the same replies and the same values. For given commands besides
the writes in `A` this holds of every two histories if and only if there is no idempotent write
among them outside `A` (one more index than commands being left). No key of a namespace is the
marker or the key of a record. The writes are those the server submits. -/
theorem namespaces_independent_iff (A : Namespace) :
    (∀ turns turns' answers answers',
      (turns.flatMap Turn.issues).filter (visible A) =
        (turns'.flatMap Turn.issues).filter (visible A) →
      Apart A (turns.flatMap Turn.issues) → Apart A (turns'.flatMap Turn.issues) →
      serve turns ⟨∅, 0⟩ = .ok answers → serve turns' ⟨∅, 0⟩ = .ok answers' →
        outside A answers = outside A answers') ∧
    (∀ base : List Issue, (∀ issue ∈ base, visible A issue = true) →
      (base.length : ℤ) < int64Max →
        (Independent A base ↔ ∀ w, .write w ∈ base → w.client = none)) ∧
    (∀ key, namespacedKey A key ≠ appliedKey ∧
      ∀ client, namespacedKey A key ≠ clientSessionKey client) ∧
    ∀ (s : Server) (id : Name) (args : List Bytes),
      (s.namespaces id).getD (ascii "default") = A → (classifyCommand args).type = .write →
      (s.writeCommand id args).length ≤ kMaxCommandBytes →
        ∃ w : Write, w.ns = A ∧ w.args = args ∧ s.writeCommand id args = w.bytes := by
  refine ⟨?_, fun base hvisible hmax => ⟨plain_of_independent hvisible hmax, independent_of_plain⟩,
    fun key => ?_, fun s id args => exists_write⟩
  · intro turns turns' answers answers' hvisible hapart hapart' hserve hserve'
    rw [serve_new hserve, serve_new hserve', hapart.outside_observe, hapart'.outside_observe,
      hvisible]
  · have huser := userKey_namespacedKey A key
    exact ⟨huser.ne_appliedKey, huser.ne_clientSessionKey⟩

/-- `IDEMP c 2 SET k v` in the namespace `a`. -/
def idempInA : Write where
  ns := ⟨ascii "a", by decide⟩
  args := [ascii "IDEMP", ascii "c", ascii "2", ascii "SET", ascii "k", ascii "v"]
  command := .idemp (ascii "c") 2 (.set (ascii "k") (ascii "v"))
  means := .idempSet (ascii "k") (ascii "v") (by decide) (by decide) (by decide) (by decide)
  size := by decide

/-- `IDEMP c 1 SET k v` in the namespace `b`. -/
def idempInB : Write where
  ns := ⟨ascii "b", by decide⟩
  args := [ascii "IDEMP", ascii "c", ascii "1", ascii "SET", ascii "k", ascii "v"]
  command := .idemp (ascii "c") 1 (.set (ascii "k") (ascii "v"))
  means := .idempSet (ascii "k") (ascii "v") (by decide) (by decide) (by decide) (by decide)
  size := by decide

/-- `IDEMP d 1 SET k w` in the namespace `b`. -/
def otherInB : Write where
  ns := ⟨ascii "b", by decide⟩
  args := [ascii "IDEMP", ascii "d", ascii "1", ascii "SET", ascii "k", ascii "w"]
  command := .idemp (ascii "d") 1 (.set (ascii "k") (ascii "w"))
  means := .idempSet (ascii "k") (ascii "w") (by decide) (by decide) (by decide) (by decide)
  size := by decide

/-- `SET k v` in the namespace `a`. -/
def setInA : Write where
  ns := ⟨ascii "a", by decide⟩
  args := [ascii "SET", ascii "k", ascii "v"]
  command := .write (.set (ascii "k") (ascii "v"))
  means := .set (ascii "k") (ascii "v")
  size := by decide

/-- An idempotent write in `a`, or a plain one at another time : what a client of its own writes
and reads in `b` is the same. -/
theorem namespaces_independent_iff_apart :
    ∃ answers answers',
      serve [.batch [idempInA, otherInB], .get otherInB.ns (ascii "k")] ⟨∅, 0⟩ = .ok answers ∧
      serve [.batch [otherInB], .batch [setInA], .get otherInB.ns (ascii "k")] ⟨∅, 0⟩ =
        .ok answers' ∧
      outside idempInA.ns answers = outside idempInA.ns answers' ∧
      outside idempInA.ns answers =
        [(otherInB.ns, .reply okReply), (otherInB.ns, .value (some (ascii "w")))] := by
  have hserve : serve [.batch [idempInA, otherInB], .get otherInB.ns (ascii "k")] ⟨∅, 0⟩ =
      .ok [(idempInA.ns, .reply okReply), (otherInB.ns, .reply okReply),
        (otherInB.ns, .value (some (ascii "w")))] := by decide +kernel
  have hserve' : serve [.batch [otherInB], .batch [setInA], .get otherInB.ns (ascii "k")] ⟨∅, 0⟩ =
      .ok [(otherInB.ns, .reply okReply), (setInA.ns, .reply okReply),
        (otherInB.ns, .value (some (ascii "w")))] := by decide +kernel
  refine ⟨_, _, hserve, hserve', (namespaces_independent_iff idempInA.ns).1 _ _ _ _ (by rfl) ?_ ?_
    hserve hserve', by decide⟩
  · intro v w hv hw hin hout
    simp only [List.flatMap_cons, List.flatMap_nil, Turn.issues, List.map_cons, List.map_nil,
      List.append_nil, List.cons_append, List.nil_append, List.mem_cons, List.not_mem_nil,
      or_false, Issue.write.injEq, reduceCtorEq] at hv hw
    rcases hv with rfl | rfl <;> rcases hw with rfl | rfl
    · exact absurd hin hout
    · rintro client hc hd
      exact absurd (hd.trans hc.symm) (by decide)
    · exact absurd hin (by decide)
    · exact absurd hin (by decide)
  · intro v w hv hw hin hout
    simp only [List.flatMap_cons, List.flatMap_nil, Turn.issues, List.map_cons, List.map_nil,
      List.append_nil, List.cons_append, List.nil_append, List.mem_cons, List.not_mem_nil,
      or_false, Issue.write.injEq, reduceCtorEq] at hv hw
    rcases hv with rfl | rfl
    · exact absurd hin (by decide)
    · intro client hc
      cases hc

/-- The write in `b` is accepted, unless the write of the same client in `a` comes before it. -/
theorem client_shared_by_namespaces :
    [Issue.write idempInB].filter (visible idempInA.ns) =
        [Issue.write idempInA, .write idempInB].filter (visible idempInA.ns) ∧
      serve [.batch [idempInB]] ⟨∅, 0⟩ = .ok [(idempInB.ns, .reply okReply)] ∧
      serve [.batch [idempInA, idempInB]] ⟨∅, 0⟩ =
        .ok [(idempInA.ns, .reply okReply), (idempInB.ns, .reply staleReply)] :=
  ⟨rfl, by decide +kernel, by decide +kernel⟩

end Server

end RaftKV
