import Assay.Json.Reader
/-!
# Documents

A document is a JSON value in which no object has a key twice.  Every value that is read from a text is one
(`Document.ofString?`), since a repeated key takes the place of the first (`Json.bind`).
-/
namespace Assay

namespace Json

theorem distinctKeysAll_iff : ∀ {items : List Json},
    distinctKeysAll items = true ↔ ∀ v ∈ items, v.distinctKeys = true
  | [] => by simp [distinctKeysAll]
  | v :: items => by rw [distinctKeysAll, Bool.and_eq_true, distinctKeysAll_iff, List.forall_mem_cons]

theorem distinctKeysEntries_iff : ∀ {entries : List (String × Json)},
    distinctKeysEntries entries = true ↔ ∀ e ∈ entries, e.2.distinctKeys = true
  | [] => by simp [distinctKeysEntries]
  | (k, v) :: entries => by rw [distinctKeysEntries, Bool.and_eq_true, distinctKeysEntries_iff, List.forall_mem_cons]

theorem distinctKeys_array {items : List Json} :
    (array items).distinctKeys = true ↔ ∀ v ∈ items, v.distinctKeys = true := by
  rw [distinctKeys, distinctKeysAll_iff]

theorem distinctKeys_object {entries : List (String × Json)} : (object entries).distinctKeys = true ↔
    (entries.map (·.1)).Nodup ∧ ∀ e ∈ entries, e.2.distinctKeys = true := by
  rw [distinctKeys, Bool.and_eq_true, decide_eq_true_iff, distinctKeysEntries_iff]

theorem mem_bind {k : String} {v : Json} : ∀ {entries : List (String × Json)} {e : String × Json},
    e ∈ bind k v entries → e = (k, v) ∨ e ∈ entries
  | [], e, h => Or.inl (List.mem_singleton.1 h)
  | (k', v') :: entries, e, h => by
    rw [bind] at h
    split at h
    · exact (List.mem_cons.1 h).imp_right (List.mem_cons_of_mem _)
    · rcases List.mem_cons.1 h with rfl | h
      · exact Or.inr List.mem_cons_self
      · exact (mem_bind h).imp_right (List.mem_cons_of_mem _)

theorem nodup_bind {k : String} {v : Json} : ∀ {entries : List (String × Json)}, (entries.map (·.1)).Nodup →
    ((bind k v entries).map (·.1)).Nodup
  | [], _ => by simp [bind]
  | (k', v') :: entries, h => by
    rw [List.map_cons, List.nodup_cons] at h
    rw [bind]
    split
    · rename_i he
      exact List.nodup_cons.2 ⟨he ▸ h.1, h.2⟩
    · rename_i hne
      refine List.nodup_cons.2 ⟨fun hm => ?_, nodup_bind h.2⟩
      obtain ⟨e, he, hk⟩ := List.mem_map.1 hm
      rcases mem_bind he with rfl | he
      · exact hne hk.symm
      · exact h.1 (List.mem_map.2 ⟨e, he, hk⟩)

/-- **Binding a key keeps the keys distinct.** -/
theorem distinctKeys_bind {k : String} {v : Json} {entries : List (String × Json)} (hv : v.distinctKeys = true)
    (h : (object entries).distinctKeys = true) : (object (bind k v entries)).distinctKeys = true := by
  obtain ⟨hn, hd⟩ := distinctKeys_object.1 h
  refine distinctKeys_object.2 ⟨nodup_bind hn, fun e he => ?_⟩
  rcases mem_bind he with rfl | he
  · exact hv
  · exact hd e he

mutual

/-- **What is read has distinct keys**: a value, the items of an array, and the entries of an object after others. -/
theorem distinctKeys_of_value? {cs : List Char} {v : Json} {u : Rest cs} (h : value? cs = some (v, u)) :
    v.distinctKeys = true := by
  rw [value?.eq_def] at h
  cases cs with
  | nil => cases h
  | cons c r =>
    dsimp only at h
    split at h
    · obtain ⟨⟨w, t⟩, hw, h⟩ := Option.bind_eq_some_iff.1 h
      cases h
      exact distinctKeys_of_value? hw
    split at h
    · obtain ⟨⟨text, t⟩, -, h⟩ := Option.bind_eq_some_iff.1 h
      cases h
      rfl
    split at h
    · split at h
      · cases h
        rfl
      · obtain ⟨⟨items, t⟩, hi, h⟩ := Option.bind_eq_some_iff.1 h
        cases h
        exact distinctKeys_of_items? hi
    split at h
    · split at h
      · cases h
        rfl
      · obtain ⟨⟨entries, t⟩, he, h⟩ := Option.bind_eq_some_iff.1 h
        cases h
        exact distinctKeys_of_entries? rfl he
    split at h
    · obtain ⟨n, -, h⟩ := Option.bind_eq_some_iff.1 h
      cases h
      rfl
    · split at h <;> cases h <;> rfl
termination_by 2 * cs.length

theorem distinctKeys_of_items? {cs : List Char} {items : List Json} {u : Rest cs} (h : items? cs = some (items, u)) :
    (array items).distinctKeys = true := by
  rw [items?] at h
  obtain ⟨⟨v, t⟩, hv, h⟩ := Option.bind_eq_some_iff.1 h
  have hd := distinctKeys_of_value? hv
  dsimp only at h
  split at h
  · obtain ⟨⟨rest, w⟩, hr, h⟩ := Option.bind_eq_some_iff.1 h
    cases h
    exact distinctKeys_array.2 (List.forall_mem_cons.2 ⟨hd, distinctKeys_array.1 (distinctKeys_of_items? hr)⟩)
  · obtain ⟨w, -, h⟩ := Option.bind_eq_some_iff.1 h
    cases h
    exact distinctKeys_array.2 (List.forall_mem_singleton.2 hd)
termination_by 2 * cs.length + 1

theorem distinctKeys_of_entries? {cs : List Char} {known entries : List (String × Json)} {u : Rest cs}
    (hk : (object known).distinctKeys = true) (h : entries? known cs = some (entries, u)) :
      (object entries).distinctKeys = true := by
  rw [entries?] at h
  obtain ⟨q, -, h⟩ := Option.bind_eq_some_iff.1 h
  obtain ⟨⟨key, t⟩, -, h⟩ := Option.bind_eq_some_iff.1 h
  obtain ⟨s, -, h⟩ := Option.bind_eq_some_iff.1 h
  obtain ⟨⟨v, w⟩, hv, h⟩ := Option.bind_eq_some_iff.1 h
  have hd := distinctKeys_bind (k := key) (distinctKeys_of_value? hv) hk
  dsimp only at h
  split at h
  · obtain ⟨⟨rest, x⟩, hr, h⟩ := Option.bind_eq_some_iff.1 h
    cases h
    exact distinctKeys_of_entries? hd hr
  · obtain ⟨x, -, h⟩ := Option.bind_eq_some_iff.1 h
    cases h
    exact hd
termination_by 2 * cs.length + 1

end

theorem distinctKeys_of_ofString? {s : String} {v : Json} (h : ofString? s = some v) : v.distinctKeys = true := by
  obtain ⟨⟨w, u⟩, hw, h⟩ := Option.bind_eq_some_iff.1 h
  dsimp only at h
  split at h
  · cases h
    exact distinctKeys_of_value? hw
  · cases h

end Json

/-- **A JSON value in which no object has a key twice.** -/
structure Document where
  value : Json
  distinct : value.distinctKeys = true := by decide

namespace Document

/-- The document that a whole text spells. -/
def ofString? (s : String) : Option Document :=
  (Json.ofString? s).pmap (fun value distinct => ⟨value, distinct⟩) fun _ h => Json.distinctKeys_of_ofString? h

/-- Whatever value is read is the value of a document. -/
theorem map_value_ofString? (s : String) : (ofString? s).map value = Json.ofString? s := by
  unfold ofString?
  rw [Option.map_pmap, Option.pmap_eq_map, Option.map_id']

end Document

end Assay
