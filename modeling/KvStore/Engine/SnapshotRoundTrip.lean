import KvStore.Engine.FlushFailure

/-!
# Restoring what `Snapshot` wrote

`Snapshot` writes the live pairs in the order in which it meets their keys, and `RestoreSnapshot`
decodes them, sorts them and writes them to a table, which rejects a key that is not above the one
before.

* `Readable`: every key and every value passes the check of `readLenPrefixed`, which compares its
  length with the length of what is left **modulo `2 ^ 32`**.
* `decode_snapshot`: the decoder gives back the pairs if they are readable, and fails if they are
  not.
* `write_snapshotEntries`: pairs with different keys are accepted by the table's writer, in any
  order.
* `restore_snapshot_iff`: the round trip gives the same content if and only if the live pairs are
  readable, for one engine's snapshot and any other engine without a flush in progress.
* `large_snapshot_rejected`: two values of 2 GiB are enough.
-/

namespace KvStore

open Codec Layered

/-! ## Decoding -/

/-- The length of a snapshot with these pairs. -/
def snapshotSize (kvs : List (Bytes × Bytes)) : ℕ := (encodeSnapshotEntries kvs).length

/-- No key and no value is longer than the length of what is left from it on, modulo `2 ^ 32`. -/
def Readable : List (Bytes × Bytes) → Prop
  | [] => True
  | (k, v) :: kvs =>
    k.length ≤ (k.length + (4 + (v.length + snapshotSize kvs))) % 2 ^ 32 ∧
      v.length ≤ (v.length + snapshotSize kvs) % 2 ^ 32 ∧ Readable kvs

instance decidableReadable : DecidablePred Readable
  | [] => .isTrue trivial
  | (_, _) :: kvs =>
    have := decidableReadable kvs
    inferInstanceAs (Decidable (_ ∧ _ ∧ Readable kvs))

theorem length_writeLenPrefixed (b : Bytes) : (writeLenPrefixed b).length = 4 + b.length := by
  rw [writeLenPrefixed, List.length_append]
  rfl

theorem snapshotSize_cons (k v : Bytes) (kvs : List (Bytes × Bytes)) :
    snapshotSize ((k, v) :: kvs) = 4 + k.length + (4 + v.length) + snapshotSize kvs := by
  unfold snapshotSize encodeSnapshotEntries
  rw [List.flatMap_cons, List.length_append, List.length_append, length_writeLenPrefixed,
    length_writeLenPrefixed]

/-- A snapshot of less than `2 ^ 32` bytes is readable. -/
theorem readable_of_small {kvs : List (Bytes × Bytes)} (h : snapshotSize kvs < 2 ^ 32) :
    Readable kvs := by
  induction kvs with
  | nil => trivial
  | cons kv kvs ih =>
    obtain ⟨k, v⟩ := kv
    rw [snapshotSize_cons] at h
    refine ⟨?_, ?_, ih (by omega)⟩
    · rw [Nat.mod_eq_of_lt (by omega)]
      omega
    · rw [Nat.mod_eq_of_lt (by omega)]
      omega

/-- **The decoder gives back readable pairs, and rejects all others.** -/
theorem decodeSnapshotFrom_encode {kvs : List (Bytes × Bytes)} {fuel : ℕ}
    (hsmall : ∀ kv ∈ kvs, kv.1.length < 2 ^ 32 ∧ kv.2.length < 2 ^ 32) (hfuel : kvs.length ≤ fuel) :
    decodeSnapshotFrom fuel (encodeSnapshotEntries kvs) = if Readable kvs then some kvs else
      none := by
  induction kvs generalizing fuel with
  | nil =>
    rw [if_pos (show Readable [] from trivial)]
    cases fuel <;> rfl
  | cons kv kvs ih =>
    obtain ⟨k, v⟩ := kv
    obtain ⟨⟨hk, hv⟩, hrest⟩ := List.forall_mem_cons.mp hsmall
    obtain ⟨fuel, rfl⟩ : ∃ n, fuel = n + 1 := ⟨fuel - 1, by rw [List.length_cons] at hfuel; omega⟩
    have henc : encodeSnapshotEntries ((k, v) :: kvs) =
        writeLenPrefixed k ++ (writeLenPrefixed v ++ encodeSnapshotEntries kvs) := by
      rw [encodeSnapshotEntries, List.flatMap_cons, List.append_assoc]
      rfl
    have hstep : ∀ data, data ≠ [] → decodeSnapshotFrom (fuel + 1) data =
        (readLenPrefixed data).bind fun p => (readLenPrefixed p.2).bind fun q =>
          (decodeSnapshotFrom fuel q.2).bind fun rest => some ((p.1, q.1) :: rest) := by
      intro data hd
      cases data with
      | nil => exact absurd rfl hd
      | cons b data => rfl
    have hne : encodeSnapshotEntries ((k, v) :: kvs) ≠ [] := by
      intro hnil
      have hlen := congrArg List.length hnil
      rw [henc, List.length_append, length_writeLenPrefixed, List.length_nil] at hlen
      omega
    have hkey : (k ++ (writeLenPrefixed v ++ encodeSnapshotEntries kvs)).length =
        k.length + (4 + (v.length + snapshotSize kvs)) := by
      rw [List.length_append, List.length_append, length_writeLenPrefixed, Nat.add_assoc 4]
      rfl
    have hvalue : (v ++ encodeSnapshotEntries kvs).length = v.length + snapshotSize kvs :=
      List.length_append
    rw [hstep _ hne, henc, readLenPrefixed_write hk, hkey]
    by_cases hck : k.length ≤ (k.length + (4 + (v.length + snapshotSize kvs))) % 2 ^ 32
    swap
    · rw [if_pos (Nat.not_le.mp hck), if_neg fun h => hck h.1]
      rfl
    rw [if_neg (Nat.not_lt.mpr hck), Option.bind_some, readLenPrefixed_write hv, hvalue]
    by_cases hcv : v.length ≤ (v.length + snapshotSize kvs) % 2 ^ 32
    swap
    · rw [if_pos (Nat.not_le.mp hcv), if_neg fun h => hcv h.2.1]
      rfl
    rw [if_neg (Nat.not_lt.mpr hcv), Option.bind_some,
      ih hrest (by rw [List.length_cons] at hfuel; omega)]
    by_cases hr : Readable kvs
    · rw [if_pos hr, if_pos ⟨hck, hcv, hr⟩]
      rfl
    · rw [if_neg hr, if_neg fun h => hr h.2.2]
      rfl

theorem length_le_snapshotSize (kvs : List (Bytes × Bytes)) : kvs.length ≤ snapshotSize kvs := by
  induction kvs with
  | nil => exact Nat.zero_le _
  | cons kv kvs ih =>
    rw [List.length_cons, snapshotSize_cons]
    omega

theorem decode_snapshot {kvs : List (Bytes × Bytes)}
    (hsmall : ∀ kv ∈ kvs, kv.1.length < 2 ^ 32 ∧ kv.2.length < 2 ^ 32) :
    decodeSnapshotEntries (encodeSnapshotEntries kvs) = if Readable kvs then some kvs else none :=
  decodeSnapshotFrom_encode hsmall (length_le_snapshotSize kvs)

theorem length_le_of_mem {kvs : List (Bytes × Bytes)} {kv : Bytes × Bytes} (h : kv ∈ kvs) :
    kv.1.length + kv.2.length ≤ snapshotSize kvs := by
  induction kvs with
  | nil => cases h
  | cons a kvs ih =>
    rw [snapshotSize_cons]
    rcases List.mem_cons.mp h with rfl | h
    · omega
    · have := ih h
      omega

/-- A snapshot of less than `2 ^ 32` bytes is read back. -/
theorem decode_of_small {kvs : List (Bytes × Bytes)}
    (h : (encodeSnapshotEntries kvs).length < 2 ^ 32) :
    decodeSnapshotEntries (encodeSnapshotEntries kvs) = some kvs := by
  have hsmall : ∀ kv ∈ kvs, kv.1.length < 2 ^ 32 ∧ kv.2.length < 2 ^ 32 := fun kv hkv => by
    have := (length_le_of_mem hkv).trans_lt h
    omega
  rw [decode_snapshot hsmall, if_pos (readable_of_small h)]

/-! ## The table -/

namespace Engine

/-- Pairs with different keys make a table, in whatever order they come. -/
theorem write_snapshotEntries {kvs : List (Bytes × Bytes)} (h : kvs.Pairwise fun a b => a.1 ≠ b.1) :
    ∃ t, Table.write (snapshotEntries kvs) = some t := by
  have hsorted : (snapshotEntries kvs).Pairwise fun a b => a.1 < b.1 := by
    have hle : (kvs.mergeSort fun a b => a.1 ≤ b.1).Pairwise fun a b => decide (a.1 ≤ b.1) = true :=
      List.pairwise_mergeSort
        (fun a b c hab hbc => by simpa using le_trans (by simpa using hab) (by simpa using hbc))
          (fun a b => by simpa using le_total a.1 b.1) kvs
    have hne : (kvs.mergeSort fun a b => a.1 ≤ b.1).Pairwise fun a b => a.1 ≠ b.1 :=
      h.perm (List.mergeSort_perm kvs _).symm fun hab => hab.symm
    have hlt : (kvs.mergeSort fun a b => a.1 ≤ b.1).Pairwise fun a b => a.1 < b.1 :=
      hle.imp₂ (fun a b hab hn => lt_of_le_of_ne (by simpa using hab) hn) hne
    rw [← List.zipIdx_map_fst 1 (kvs.mergeSort _), List.pairwise_map] at hlt
    exact List.pairwise_map.mpr hlt
  exact ⟨⟨_, hsorted⟩, dif_pos hsorted⟩

/-! ## The round trip -/

section

variable {A B B' : Engine} {keys : List Bytes} {fs : List FsOp}

/-- A snapshot that is restored gives its content. -/
theorem restoreSnapshot_get {data : Bytes} (h : B.restoreSnapshot data = (fs, .ok B')) :
    ∃ kvs, decodeSnapshotEntries data = some kvs ∧ B'.get = contentOf kvs := by
  obtain ⟨himm, kvs, t, hkvs, ht, -, rfl⟩ := restoreSnapshot_ok h
  refine ⟨kvs, hkvs, ?_⟩
  rw [get_eq, himm, ← resolve_snapshot ht]
  exact congrArg resolve (atop_void t.layer)

theorem livePairs_small (hkeys : keys.Perm A.knownKeys)
    (hsmall : ∀ k v, A.get k = some v → k.length < 2 ^ 32 ∧ v.length < 2 ^ 32) :
    ∀ kv ∈ A.livePairs keys, kv.1.length < 2 ^ 32 ∧ kv.2.length < 2 ^ 32 :=
  fun kv hkv => hsmall kv.1 kv.2 ((mem_livePairs hkeys).mp hkv)

/-- A snapshot that is restored gives what `Get` showed, for any order of its keys. -/
theorem get_of_restored (hkeys : keys.Perm A.knownKeys)
    (hsmall : ∀ k v, A.get k = some v → k.length < 2 ^ 32 ∧ v.length < 2 ^ 32)
    (h : B.restoreSnapshot (A.snapshot keys) = (fs, .ok B')) : Readable (A.livePairs keys) ∧
      B'.get = A.get := by
  obtain ⟨kvs, hkvs, hget⟩ := restoreSnapshot_get h
  rw [snapshot, decode_snapshot (livePairs_small hkeys hsmall)] at hkvs
  split_ifs at hkvs with hr
  obtain rfl := Option.some.inj hkvs
  exact ⟨hr, hget.trans (contentOf_livePairs hkeys)⟩

theorem restoreSnapshot_of_readable (hidle : B.immutable = none) (hkeys : keys.Perm A.knownKeys)
    (hsmall : ∀ k v, A.get k = some v → k.length < 2 ^ 32 ∧ v.length < 2 ^ 32)
    (h : Readable (A.livePairs keys)) : ∃ fs B', B.restoreSnapshot (A.snapshot keys) =
    (fs, .ok B') := by
  obtain ⟨t, ht⟩ := write_snapshotEntries (livePairs_ne hkeys)
  unfold restoreSnapshot
  rw [hidle, snapshot, decode_snapshot (livePairs_small hkeys hsmall), if_pos h]
  simp only [Option.isSome_none, Bool.false_eq_true, if_false, ht]
  exact ⟨_, _, rfl⟩

/-- **Restoring a snapshot gives the same content if and only if the live pairs are readable** in
the order in which they were written, and two orders that can be restored give the same content. -/
theorem restore_snapshot_iff (A B : Engine) (keys : List Bytes) (hkeys : keys.Perm A.knownKeys)
    (hsmall : ∀ k v, A.get k = some v → k.length < 2 ^ 32 ∧ v.length < 2 ^ 32)
    (hidle : B.immutable = none) :
    ((∃ fs B', B.restoreSnapshot (A.snapshot keys) = (fs, .ok B') ∧ B'.get = A.get) ↔
      Readable (A.livePairs keys)) ∧
    ∀ keys', keys'.Perm A.knownKeys → ∀ fs fs' B₁ B₂, B.restoreSnapshot (A.snapshot keys) =
    (fs, .ok B₁) →
      B.restoreSnapshot (A.snapshot keys') = (fs', .ok B₂) → B₁.get = B₂.get := by
  refine ⟨⟨?_, fun h => ?_⟩, ?_⟩
  · rintro ⟨fs, B', hrun, -⟩
    exact (get_of_restored hkeys hsmall hrun).1
  · obtain ⟨fs, B', hrun⟩ := restoreSnapshot_of_readable hidle hkeys hsmall h
    exact ⟨fs, B', hrun, (get_of_restored hkeys hsmall hrun).2⟩
  · intro keys' hkeys' fs fs' B₁ B₂ h₁ h₂
    rw [(get_of_restored hkeys hsmall h₁).2, (get_of_restored hkeys' hsmall h₂).2]

end

/-- An engine with two keys. -/
def twoKeys (v w : Bytes) : Engine :=
  { newEngine with mem := (Table.empty.put [97] v 1).put [98] w 2 }

theorem knownKeys_twoKeys (v w : Bytes) : (twoKeys v w).knownKeys = [[97], [98]] := rfl

theorem livePairs_twoKeys (v w : Bytes) :
    (twoKeys v w).livePairs [[97], [98]] = [([97], v), ([98], w)] := rfl

theorem restore_snapshot_iff_two :
    ∃ fs B', newEngine.restoreSnapshot ((twoKeys [1] [2]).snapshot [[97], [98]]) = (fs, .ok B') ∧
      B'.get = (twoKeys [1] [2]).get := by
  refine (restore_snapshot_iff (twoKeys [1] [2]) newEngine [[97], [98]] (.refl _) ?_ rfl).1.mpr
    (by decide)
  intro k v hv
  have hmem := (mem_livePairs (e := twoKeys [1] [2]) (.refl _)).mpr hv
  rw [knownKeys_twoKeys, livePairs_twoKeys] at hmem
  rcases List.mem_cons.mp hmem with heq | hmem
  · cases heq
    decide
  · cases List.mem_singleton.mp hmem
    decide

/-- What follows the length of the first of two values of 2 GiB is `2 ^ 32 + 9` bytes, which the
reader takes for nine. -/
theorem restoreSnapshot_large {v w : Bytes} (hv : v.length = 2 ^ 31) (hw : w.length = 2 ^ 31) :
    newEngine.restoreSnapshot ((twoKeys v w).snapshot [[97], [98]]) =
    ([], .error .malformedSnapshot) := by
  have hr : ¬Readable [([97], v), ([98], w)] := by
    rintro ⟨-, hread, -⟩
    rw [snapshotSize_cons, hv, hw] at hread
    exact absurd hread (by decide)
  have hsmall : ∀ kv ∈ [(([97] : Bytes), v), ([98], w)], kv.1.length < 2 ^ 32 ∧
      kv.2.length < 2 ^ 32 := by
    intro kv hkv
    rcases List.mem_cons.mp hkv with rfl | hkv
    · exact ⟨show ([97] : Bytes).length < 2 ^ 32 by decide, by rw [hv]; decide⟩
    · obtain rfl := List.mem_singleton.mp hkv
      exact ⟨show ([98] : Bytes).length < 2 ^ 32 by decide, by rw [hw]; decide⟩
  unfold restoreSnapshot
  rw [snapshot, livePairs_twoKeys, decode_snapshot hsmall, if_neg hr]
  rfl

/-- **A snapshot of two values of 2 GiB cannot be restored.** -/
theorem large_snapshot_rejected :
    newEngine.restoreSnapshot
      ((twoKeys (List.replicate (2 ^ 31) 0) (List.replicate (2 ^ 31) 0)).snapshot [[97], [98]]) =
      ([], .error .malformedSnapshot) :=
  restoreSnapshot_large List.length_replicate List.length_replicate

end Engine

end KvStore
