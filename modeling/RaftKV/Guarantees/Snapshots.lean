import RaftKV.AbstractLog
import RaftKV.KvSnapshot

/-!
# Snapshots carry the whole state

A snapshot that fits the log is the whole contents of a store : installed in any store that is
not ahead of it, it leaves these contents and nothing else, and exporting them again gives the
same bytes (`kv_snapshot_round_trip`).
-/

namespace RaftKV

theorem exportSnapshot_eq {s : Store}
    (h : (encodeEntries s.exportEntries).length ≤ kMaxSnapshotBytes) :
    s.exportSnapshot = .ok (encodeEntries s.exportEntries) :=
  Store.exportSnapshot_ok_iff.mpr ⟨exportable_of_length (h.trans (by decide)), rfl⟩

/-- What a store exports, any store that is not ahead of it installs. -/
theorem kv_snapshot_round_trip {source target : Store} {index : ℤ}
    (hsize : (encodeEntries source.exportEntries).length ≤ kMaxSnapshotBytes)
    (hindex : target.lastApplied ≤ index) :
    ∃ bytes installed, source.exportSnapshot = .ok bytes ∧
      target.installSnapshot index bytes = .ok installed ∧
      installed.lastApplied = index ∧
      (∀ key, key ≠ appliedKey → installed.db[key]? = source.db[key]?) ∧
      installed.db[appliedKey]? = some (encodeApplied index) ∧
      installed.exportSnapshot = .ok bytes := by
  have hmax : kMaxSnapshotBytes ≤ uint32Max := by decide
  have hnone : (source.db.erase appliedKey : DB)[appliedKey]? = none := by simp
  obtain ⟨batch, hbatch⟩ := Store.replaceBatch_ok hnone hindex
  have hinstall : target.installSnapshot index (encodeEntries source.exportEntries) =
      .ok ⟨(source.db.erase appliedKey : DB).insert appliedKey (encodeApplied index), index⟩ := by
    rw [Store.installSnapshot,
      parseSnapshot_encodeEntries (exportable_of_length (hsize.trans hmax)),
      source.exportEntries_eq]
    simp only [bind, Except.bind, hbatch, Store.replaceAll_db hbatch]
    rfl
  have hexport : (Store.mk ((source.db.erase appliedKey : DB).insert appliedKey
      (encodeApplied index)) index).exportEntries = source.exportEntries := by
    rw [Store.exportEntries_marker hnone, source.exportEntries_eq]
  refine ⟨_, _, exportSnapshot_eq hsize, hinstall, rfl, fun key hkey => ?_, ?_, ?_⟩
  · simp [Ne.symm hkey]
  · simp
  · rw [exportSnapshot_eq (hexport ▸ hsize), hexport]

/-- A store with one key goes over a store with another one. -/
theorem kv_snapshot_round_trip_key :
    ∃ bytes installed, (Store.mk (({} : DB).insert [] [1]) 0).exportSnapshot = .ok bytes ∧
      (Store.mk (({} : DB).insert [7] []) 0).installSnapshot 5 bytes = .ok installed ∧
      installed.lastApplied = 5 ∧
      (∀ key, key ≠ appliedKey → installed.db[key]? = (({} : DB).insert [] [1])[key]?) ∧
      installed.db[appliedKey]? = some (encodeApplied 5) ∧
      installed.exportSnapshot = .ok bytes :=
  kv_snapshot_round_trip (by decide) (by decide)

end RaftKV
