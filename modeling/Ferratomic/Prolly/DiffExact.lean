import Ferratomic.Prolly.DiffWalk

/-!
# The diff is exact

The reports of the walk are those of the two maps up to what both sides have, and
`deduplicatePhantomEntries` cancels that. The main theorem, `diff_exact_difference`, says that the
result is exactly the difference of the two maps.
-/

namespace Ferratomic.Prolly

open Lib

section Deduplicate

/-- The reports fall into those of the left side, of the right side and of both. -/
theorem reported_split (entries : List DiffEntry) :
    reported entries = sidesOf (entries.filterMap DiffEntry.onlyLeft?)
      (entries.filterMap DiffEntry.onlyRight?) +
        reported (entries.filter DiffEntry.isModified) := by
  induction entries with
  | nil => rfl
  | cons entry rest ih =>
      rw [reported_cons, ih]
      cases entry with
      | leftOnly key value =>
          rw [← add_assoc]
          exact congrArg (· + _) (sidesOf_cons_left (key, value) _ _).symm
      | rightOnly key value =>
          rw [← add_assoc]
          exact congrArg (· + _) (sidesOf_cons_right (key, value) _ _).symm
      | modified key left right =>
          show _ = _ + reported (DiffEntry.modified key left right :: _)
          rw [reported_cons, add_left_comm]
          rfl

/-- Cancelling leaves the difference as it is. -/
theorem cancels_deduplicatePhantomEntries (entries : List DiffEntry) :
    Cancels (reported entries) (reported (deduplicatePhantomEntries entries)) := by
  have hsorted : ∀ kvs : List KvEntry,
      (↑(kvs.mergeSort fun a b => a.1 ≤ b.1) : Multiset KvEntry) = ↑kvs := fun kvs =>
    Multiset.coe_eq_coe.mpr (List.mergeSort_perm kvs _)
  have hjoin := cancels_mergeJoin
    ((entries.filterMap DiffEntry.onlyLeft?).mergeSort fun a b => a.1 ≤ b.1)
    ((entries.filterMap DiffEntry.onlyRight?).mergeSort fun a b => a.1 ≤ b.1)
  rw [sidesOf, hsorted, hsorted] at hjoin
  rw [reported_split, deduplicatePhantomEntries, mergeCancelPhantoms, reported_append, add_comm]
  exact (Cancels.refl _).add hjoin

/-- The keys of a report by a join are those of the joined entries. -/
theorem key_modifiedEntry (key left right : Bytes) (entry : DiffEntry)
    (h : modifiedEntry key left right = some entry) : entry.key = key := by
  unfold modifiedEntry at h
  split at h
  case isTrue =>
      cases h
      rfl
  case isFalse => cases h

/-- An entry of one side has the key of the pair. -/
theorem key_entry (side : DiffSide) (entry : KvEntry) : (side.entry entry).key = entry.1 := by
  cases side <;> rfl

/-- Sorting by distinct keys makes them ascend. -/
theorem pairwise_mergeSort_keys {kvs : List KvEntry} (h : (kvs.map Prod.fst).Nodup) :
    (kvs.mergeSort fun a b => a.1 ≤ b.1).Pairwise fun a b => a.1 < b.1 := by
  have hle : (kvs.mergeSort fun a b => a.1 ≤ b.1).Pairwise fun a b => a.1 ≤ b.1 := by
    have hsorted := @List.pairwise_mergeSort _ (fun (a b : KvEntry) => decide (a.1 ≤ b.1))
      (fun a b c hab hbc => by simpa using le_trans (of_decide_eq_true hab) (of_decide_eq_true hbc))
      (fun a b => by simpa using le_total a.1 b.1) kvs
    exact hsorted.imp fun h => of_decide_eq_true h
  have hne : (kvs.mergeSort fun a b => a.1 ≤ b.1).Pairwise fun a b => a.1 ≠ b.1 := by
    have hnodup :=
      (((List.mergeSort_perm kvs fun a b => decide (a.1 ≤ b.1)).map Prod.fst).nodup_iff).mpr h
    exact List.pairwise_map.mp hnodup
  exact hle.imp₂ (fun _ _ => lt_of_le_of_ne) hne

/-- The keys of modified entries are those of either side. -/
theorem keys_reported {out : List DiffEntry} (h : ∀ entry ∈ out, entry.isModified = true) :
    (reported out).1.map Prod.fst = ↑(out.map DiffEntry.key) ∧
      (reported out).2.map Prod.fst = ↑(out.map DiffEntry.key) := by
  induction out with
  | nil => exact ⟨rfl, rfl⟩
  | cons entry rest ih =>
      obtain ⟨hfirst, hrest⟩ := List.forall_mem_cons.mp h
      obtain ⟨hleft, hright⟩ := ih hrest
      cases entry with
      | leftOnly | rightOnly => cases hfirst
      | modified key left right =>
          rw [reported_cons, Prod.fst_add, Prod.snd_add, Multiset.map_add, Multiset.map_add, hleft,
            hright]
          exact ⟨Multiset.singleton_add key _, Multiset.singleton_add key _⟩

/-- Where the keys of each side are distinct, no key is reported twice after cancelling. -/
theorem nodup_deduplicatePhantomEntries {entries : List DiffEntry}
    (hleft : ((reported entries).1.map Prod.fst).Nodup)
    (hright : ((reported entries).2.map Prod.fst).Nodup) :
    ((deduplicatePhantomEntries entries).map DiffEntry.key).Nodup := by
  obtain ⟨hmodLeft, hmodRight⟩ :=
    @keys_reported (entries.filter DiffEntry.isModified) fun _ h => (List.mem_filter.mp h).2
  rw [reported_split, Prod.fst_add, Multiset.map_add, hmodLeft] at hleft
  rw [reported_split, Prod.snd_add, Multiset.map_add, hmodRight] at hright
  obtain ⟨hleftKeys, hmods, hleftNew⟩ := List.nodup_append.mp
    (show ((entries.filterMap DiffEntry.onlyLeft?).map Prod.fst ++
      (entries.filter DiffEntry.isModified).map DiffEntry.key).Nodup from hleft)
  obtain ⟨hrightKeys, -, hrightNew⟩ := List.nodup_append.mp
    (show ((entries.filterMap DiffEntry.onlyRight?).map Prod.fst ++
      (entries.filter DiffEntry.isModified).map DiffEntry.key).Nodup from hright)
  rw [deduplicatePhantomEntries, mergeCancelPhantoms, List.map_append]
  refine List.nodup_append.mpr ⟨hmods, ?_, ?_⟩
  · have hascending := pairwise_mergeJoin (key_entry .left) (key_entry .right) key_modifiedEntry
      (pairwise_mergeSort_keys hleftKeys) (pairwise_mergeSort_keys hrightKeys)
    exact List.pairwise_map.mpr (hascending.imp ne_of_lt)
  · rintro key hmod _ hjoin rfl
    obtain ⟨entry, hentry, rfl⟩ := List.mem_map.mp hjoin
    -- a key of the join is one of the left or of the right entries, and none of those is modified
    rcases key_mem_mergeJoin (key_entry .left) (key_entry .right) key_modifiedEntry hentry
      with hkey | hkey
    · rw [((List.mergeSort_perm _ _).map Prod.fst).mem_iff] at hkey
      exact hleftNew _ hkey _ hmod rfl
    · rw [((List.mergeSort_perm _ _).map Prod.fst).mem_iff] at hkey
      exact hrightNew _ hkey _ hmod rfl

end Deduplicate

section Exact

/-- An entry that says how two maps differ under its key. -/
def DiffEntry.Differs (left right : OrdMap Bytes Bytes) : DiffEntry → Prop
  | leftOnly key value => left[key]? = some value ∧ right[key]? = none
  | rightOnly key value => left[key]? = none ∧ right[key]? = some value
  | modified key leftValue rightValue =>
      left[key]? = some leftValue ∧ right[key]? = some rightValue ∧ leftValue ≠ rightValue

/-- A pair is reported on a side exactly when an entry has it there. -/
theorem mem_reported {out : List DiffEntry} {kv : KvEntry} :
    (kv ∈ (reported out).1 ↔ ∃ entry ∈ out, kv ∈ entry.sides.1) ∧
      (kv ∈ (reported out).2 ↔ ∃ entry ∈ out, kv ∈ entry.sides.2) := by
  induction out with
  | nil => simp
  | cons entry rest ih => simp [ih.1, ih.2]

/-- A pair on a side of an entry has the entry's key. -/
theorem key_of_mem_sides {entry : DiffEntry} {kv : KvEntry}
    (h : kv ∈ entry.sides.1 ∨ kv ∈ entry.sides.2) : kv.1 = entry.key := by
  cases entry with
  | leftOnly key value => simp_all [DiffEntry.sides, DiffEntry.key]
  | rightOnly key value => simp_all [DiffEntry.sides, DiffEntry.key]
  | modified key left right =>
      rcases h with h | h
      · exact congrArg Prod.fst (Multiset.mem_singleton.mp h)
      · exact congrArg Prod.fst (Multiset.mem_singleton.mp h)

/-- A map has no key twice. -/
theorem nodup_keys_toList (map : OrdMap Bytes Bytes) :
    ((↑map.toList : Multiset KvEntry).map Prod.fst).Nodup :=
  List.pairwise_map.mpr ((OrdMap.pairwise_keys_toList map).imp ne_of_lt)

/-- A map that is split into two parts has each key in one of them and once. -/
theorem getElem?_of_split {map : OrdMap Bytes Bytes} {other common : Multiset KvEntry}
    (h : (↑map.toList : Multiset KvEntry) = other + common) :
    (∀ key value, map[key]? = some value ↔ (key, value) ∈ other ∨ (key, value) ∈ common) ∧
      ∀ a ∈ other, ∀ b ∈ common, a.1 ≠ b.1 := by
  have hkeys := nodup_keys_toList map
  rw [h, Multiset.map_add, Multiset.nodup_add] at hkeys
  obtain ⟨-, -, hdisjoint⟩ := hkeys
  refine ⟨fun key value => ?_, fun a ha b hb heq => ?_⟩
  · rw [← OrdMap.mem_toList, ← Multiset.mem_coe, h, Multiset.mem_add]
  · have hmem := Multiset.mem_map_of_mem Prod.fst hb
    rw [← heq] at hmem
    exact Multiset.disjoint_left.mp hdisjoint (Multiset.mem_map_of_mem Prod.fst ha) hmem

section Reports

variable {left right : OrdMap Bytes Bytes} {out : List DiffEntry}
  (hcancels : Cancels (sidesOf left.toList right.toList) (reported out))

include hcancels

/-- An entry of the left map is reported, or the right map has it too. -/
theorem reported_of_left {key value : Bytes} (h : left[key]? = some value) :
    DiffEntry.leftOnly key value ∈ out ∨ (∃ other, DiffEntry.modified key value other ∈ out) ∨
      right[key]? = some value := by
  obtain ⟨common, hcommon⟩ := hcancels
  rcases ((getElem?_of_split (congrArg Prod.fst hcommon)).1 key value).mp h with h | h
  · obtain ⟨entry, hentry, hside⟩ := mem_reported.1.mp h
    cases entry with
    | leftOnly =>
        cases Multiset.mem_singleton.mp hside
        exact .inl hentry
    | rightOnly => exact absurd hside (Multiset.notMem_zero _)
    | modified =>
        cases Multiset.mem_singleton.mp hside
        exact .inr (.inl ⟨_, hentry⟩)
  · exact .inr (.inr (((getElem?_of_split (congrArg Prod.snd hcommon)).1 key value).mpr (.inr h)))

/-- An entry of the right map is reported, or the left map has it too. -/
theorem reported_of_right {key value : Bytes} (h : right[key]? = some value) :
    DiffEntry.rightOnly key value ∈ out ∨ (∃ other, DiffEntry.modified key other value ∈ out) ∨
      left[key]? = some value := by
  obtain ⟨common, hcommon⟩ := hcancels
  rcases ((getElem?_of_split (congrArg Prod.snd hcommon)).1 key value).mp h with h | h
  · obtain ⟨entry, hentry, hside⟩ := mem_reported.2.mp h
    cases entry with
    | leftOnly => exact absurd hside (Multiset.notMem_zero _)
    | rightOnly =>
        cases Multiset.mem_singleton.mp hside
        exact .inl hentry
    | modified =>
        cases Multiset.mem_singleton.mp hside
        exact .inr (.inl ⟨_, hentry⟩)
  · exact .inr (.inr (((getElem?_of_split (congrArg Prod.fst hcommon)).1 key value).mpr (.inr h)))

variable (hproper : ∀ entry ∈ out, entry.Proper) (hnodup : (out.map DiffEntry.key).Nodup)

include hproper hnodup

/-- A report says how the maps differ. -/
theorem differs_of_mem {entry : DiffEntry} (hentry : entry ∈ out) : entry.Differs left right := by
  obtain ⟨common, hcommon⟩ := hcancels
  obtain ⟨hleft, hleftNew⟩ := getElem?_of_split (congrArg Prod.fst hcommon)
  obtain ⟨hright, hrightNew⟩ := getElem?_of_split (congrArg Prod.snd hcommon)
  -- a key is reported once, so that what the other side has of it would be this very entry
  have hunique : ∀ found ∈ out, entry.key = found.key → entry = found := fun found hfound h =>
    List.inj_on_of_nodup_map hnodup hentry hfound h
  cases entry with
  | leftOnly key value =>
      have hmem : (key, value) ∈ (reported out).1 :=
        mem_reported.1.mpr ⟨_, hentry, Multiset.mem_singleton_self _⟩
      refine ⟨(hleft key value).mpr (.inl hmem), ?_⟩
      by_contra hsome
      obtain ⟨other, hother⟩ := Option.ne_none_iff_exists'.mp hsome
      rcases (hright key other).mp hother with hother | hother
      · obtain ⟨found, hfound, hside⟩ := mem_reported.2.mp hother
        obtain rfl := hunique found hfound (key_of_mem_sides (.inr hside))
        exact Multiset.notMem_zero _ hside
      · exact hleftNew _ hmem _ hother rfl
  | rightOnly key value =>
      have hmem : (key, value) ∈ (reported out).2 :=
        mem_reported.2.mpr ⟨_, hentry, Multiset.mem_singleton_self _⟩
      refine ⟨?_, (hright key value).mpr (.inl hmem)⟩
      by_contra hsome
      obtain ⟨other, hother⟩ := Option.ne_none_iff_exists'.mp hsome
      rcases (hleft key other).mp hother with hother | hother
      · obtain ⟨found, hfound, hside⟩ := mem_reported.1.mp hother
        obtain rfl := hunique found hfound (key_of_mem_sides (.inl hside))
        exact Multiset.notMem_zero _ hside
      · exact hrightNew _ hmem _ hother rfl
  | modified key leftValue rightValue =>
      exact ⟨(hleft key leftValue).mpr (.inl (mem_reported.1.mpr
          ⟨_, hentry, Multiset.mem_singleton_self _⟩)),
        (hright key rightValue).mpr (.inl (mem_reported.2.mpr
          ⟨_, hentry, Multiset.mem_singleton_self _⟩)), hproper _ hentry⟩

/-- Reports that differ as two maps do, with no key twice, are the difference of the maps. -/
theorem mem_iff_differs (entry : DiffEntry) : entry ∈ out ↔ entry.Differs left right := by
  have hdiffers : ∀ {entry : DiffEntry}, entry ∈ out → entry.Differs left right :=
    differs_of_mem hcancels hproper hnodup
  refine ⟨hdiffers, fun h => ?_⟩
  -- an entry of one side is reported as its own, as part of a modification, or is on both sides
  cases entry with
  | leftOnly key value =>
      obtain ⟨hleft, hright⟩ := h
      rcases reported_of_left hcancels hleft with hmem | ⟨other, hmem⟩ | hcommon
      · exact hmem
      · have hother := (hdiffers hmem).2.1
        rw [hright] at hother
        cases hother
      · rw [hright] at hcommon
        cases hcommon
  | rightOnly key value =>
      obtain ⟨hleft, hright⟩ := h
      rcases reported_of_right hcancels hright with hmem | ⟨other, hmem⟩ | hcommon
      · exact hmem
      · have hother := (hdiffers hmem).1
        rw [hleft] at hother
        cases hother
      · rw [hleft] at hcommon
        cases hcommon
  | modified key leftValue rightValue =>
      obtain ⟨hleft, hright, hne⟩ := h
      rcases reported_of_left hcancels hleft with hmem | ⟨other, hmem⟩ | hcommon
      · have hother := (hdiffers hmem).2
        rw [hright] at hother
        cases hother
      · have hother := (hdiffers hmem).2.1
        rw [hright] at hother
        cases hother
        exact hmem
      · rw [hright] at hcommon
        cases hcommon
        exact absurd rfl hne

end Reports

end Exact

section Main

variable [Blake3] [Blake3DeriveKey]

omit [Blake3DeriveKey] in
/-- The diff starts with the two trees on its stack, unless they are equal. -/
theorem summed_diff {store : ChunkStore} {n m : Nat} {leftTree : Tree n} {rightTree : Tree m}
    {root1 root2 : Hash} (hleft : Holds store.stored leftTree root1)
    (hright : Holds store.stored rightTree root2) :
    ∃ stack load, diff root1 root2 = ⟨stack, []⟩ ∧
      Summed (DiffStackEntry.Denotes store) stack load ∧
      Cancels (sidesOf leftTree.entries rightTree.entries) load.1 := by
  unfold diff
  split
  case isTrue heq =>
      refine ⟨[], 0, rfl, .nil, ?_⟩
      subst heq
      rw [hleft.entries_eq hright]
      exact .diagonal _
  case isFalse =>
      refine ⟨_, _, rfl, .cons ⟨_, _, ⟨n, leftTree, hleft, rfl⟩, ⟨m, rightTree, hright, rfl⟩, rfl⟩
        .nil, ?_⟩
      have hsides : (DiffSide.left.load leftTree.load + DiffSide.right.load rightTree.load + 0).1 =
          sidesOf leftTree.entries rightTree.entries := by
        rw [add_zero]
        exact Prod.ext (add_zero _) (zero_add _)
      rw [hsides]
      exact .refl _

omit [Blake3] [Blake3DeriveKey] in
/-- Deduplication keeps entries proper. -/
theorem proper_deduplicatePhantomEntries {entries : List DiffEntry}
    (h : ∀ entry ∈ entries, entry.Proper) :
    ∀ entry ∈ deduplicatePhantomEntries entries, entry.Proper :=
  List.forall_mem_append.mpr
    ⟨fun entry hentry => h entry (List.mem_filter.mp hentry).1, proper_mergeJoin _ _⟩

/-- The diff of two roots ends with the difference of two maps: a report for each key that only one
of them has and for each key with different values, and no key twice. -/
def DiffIs (store : ChunkStore) (root1 root2 : Hash) (left right : OrdMap Bytes Bytes) : Prop :=
  ∃ depth entries,
    (∀ fuel ≥ depth, diffExact fuel root1 root2 store = some (.ok entries)) ∧
    (entries.map DiffEntry.key).Nodup ∧ ∀ entry, entry ∈ entries ↔ entry.Differs left right

/-- The diff of two trees that a store has is the difference of their maps. -/
theorem diffIs_of_builtIn {store : ChunkStore} {leftWidth rightWidth : Fin 64} {root1 root2 : Hash}
    {left right : OrdMap Bytes Bytes} (hleft : BuiltIn store leftWidth root1 left)
    (hright : BuiltIn store rightWidth root2 right) : DiffIs store root1 root2 left right := by
  obtain ⟨n, leftTree, hleftEntries, hleftHeld⟩ := hleft.holds
  obtain ⟨m, rightTree, hrightEntries, hrightHeld⟩ := hright.holds
  obtain ⟨stack, load, hdiff, hstack, hload⟩ := summed_diff hleftHeld hrightHeld
  obtain ⟨depth, raw, hraw, hreported, hproper⟩ := collect_ok hstack
  rw [hleftEntries, hrightEntries] at hload
  have hcancels := hload.trans hreported
  have hkeys : ((reported raw).1.map Prod.fst).Nodup ∧ ((reported raw).2.map Prod.fst).Nodup := by
    obtain ⟨common, hcommon⟩ := hcancels
    have hleftKeys := nodup_keys_toList left
    have hrightKeys := nodup_keys_toList right
    rw [show (↑left.toList : Multiset KvEntry) = _ from congrArg Prod.fst hcommon] at hleftKeys
    rw [show (↑right.toList : Multiset KvEntry) = _ from congrArg Prod.snd hcommon] at hrightKeys
    rw [Prod.fst_add, Multiset.map_add, Multiset.nodup_add] at hleftKeys
    rw [Prod.snd_add, Multiset.map_add, Multiset.nodup_add] at hrightKeys
    exact ⟨hleftKeys.1, hrightKeys.1⟩
  have hnodup := nodup_deduplicatePhantomEntries hkeys.1 hkeys.2
  refine ⟨depth, deduplicatePhantomEntries raw, fun fuel hfuel => ?_, hnodup, ?_⟩
  · unfold diffExact
    rw [hdiff, DiffIterator.collect_mono hfuel hraw]
    rfl
  · exact mem_iff_differs (hcancels.trans (cancels_deduplicatePhantomEntries raw))
      (proper_deduplicatePhantomEntries hproper) hnodup

/-- A store has both trees after two builds, unless two of the byte strings have one hash. -/
theorem builtIn_both {left right : OrdMap Bytes Bytes} {store : ChunkStore}
    {leftWidth rightWidth : Fin 64} {root1 root2 : Hash}
    (hleft : (buildProllyTree left store leftWidth).1 = .ok root1)
    (hright : (buildProllyTree right store rightWidth).1 = .ok root2)
    (hhash : Set.InjOn Blake3.hash
      (store.contents ∪ written left leftWidth ∪ written right rightWidth)) :
    BuiltIn (buildProllyTree right (buildProllyTree left store leftWidth).2 rightWidth).2
        leftWidth root1 left ∧
      BuiltIn (buildProllyTree right (buildProllyTree left store leftWidth).2 rightWidth).2
        rightWidth root2 right := by
  have hinside : (buildProllyTree left store leftWidth).2.contents ⊆
      store.contents ∪ written left leftWidth := ChunkStore.contents_putAll store _
  constructor
  · -- the build of the right tree keeps the left one
    exact (builtIn_buildProllyTree hleft (hhash.mono Set.subset_union_left)).putAll
      (buildWrites right rightWidth).2
  · exact builtIn_buildProllyTree hright (hhash.mono (Set.union_subset_union_left _ hinside))

/-- The diff of the roots of two maps is the difference of the maps, in every store that has the
chunks of both builds; and a store has them after the two builds, in either order, unless two of the
byte strings have one hash. -/
theorem diff_exact_difference {left right : OrdMap Bytes Bytes} {store : ChunkStore}
    {leftWidth rightWidth : Fin 64} {root1 root2 : Hash}
    (hleft : (buildProllyTree left store leftWidth).1 = .ok root1)
    (hright : (buildProllyTree right store rightWidth).1 = .ok root2) :
    (∀ both, BuiltIn both leftWidth root1 left → BuiltIn both rightWidth root2 right →
      DiffIs both root1 root2 left right) ∧
    (Set.InjOn Blake3.hash
        (store.contents ∪ written left leftWidth ∪ written right rightWidth) →
      DiffIs (buildProllyTree right (buildProllyTree left store leftWidth).2 rightWidth).2
          root1 root2 left right ∧
        DiffIs (buildProllyTree left (buildProllyTree right store rightWidth).2 leftWidth).2
          root1 root2 left right) := by
  refine ⟨fun both hbothLeft hbothRight => diffIs_of_builtIn hbothLeft hbothRight, fun hhash => ?_⟩
  have hfirst := builtIn_both hleft hright hhash
  rw [Set.union_right_comm] at hhash
  have hsecond := builtIn_both hright hleft hhash
  exact ⟨diffIs_of_builtIn hfirst.1 hfirst.2, diffIs_of_builtIn hsecond.2 hsecond.1⟩

end Main

section Sample

/-- The map with another value under its last key and one more key. -/
def changedMap : OrdMap Bytes Bytes :=
  (manyMap.insert [32] [1]).insert [33] [2]

/-- The last leaf chunk of the changed map. -/
def changedLeaf : Bytes :=
  [1, 2, 0, 0, 0, 1, 0, 0, 0, 32, 1, 0, 0, 0, 1, 1, 0, 0, 0, 33, 1, 0, 0, 0, 2]

/-- The chunk above the leaves of the changed map. -/
def changedRoot : Bytes :=
  pairChunk (Blake3.hash firstLeaf) (Blake3.hash changedLeaf)

/-- What a build of the changed map puts. -/
theorem buildWrites_changedMap : buildWrites changedMap 0 = (.ok (Blake3.hash changedRoot),
    [Chunk.fromBytes firstLeaf, Chunk.fromBytes changedLeaf, Chunk.fromBytes changedRoot]) :=
  buildWrites_pair
    (show changedMap.toList = firstGroup ++ [([32], [1]), ([33], [2])] by decide +kernel)
    (by decide +kernel) rfl (by decide +kernel)

/-- A build of the changed map puts its two leaves and the chunk above them. -/
theorem mem_written_changedMap {data : Bytes} (h : data ∈ written changedMap 0) :
    data ∈ [firstLeaf, changedLeaf, changedRoot] := by
  rw [written, buildWrites_changedMap] at h
  simpa [Chunk.fromBytes, eq_comm] using h

/-- The hash of the last leaf of the changed map. -/
theorem val_hash_changedLeaf : (Blake3.hash changedLeaf).val =
    [102, 168, 156, 229, 185, 49, 80, 192, 48, 172, 254, 51, 224, 67, 132, 91, 189, 239, 78, 90,
     253, 190, 159, 248, 59, 177, 17, 133, 103, 251, 162, 88] := by
  decide +kernel

/-- The chunks of both maps have different hashes. -/
theorem nodup_hashes_changed :
    ([firstLeaf, lastLeaf, manyRoot, changedLeaf, changedRoot].map Blake3.hash).Nodup := by
  have hroot : (Blake3.hash changedRoot).val.head? = some 69 := by
    rw [changedRoot, pairChunk, val_hash_firstLeaf, val_hash_changedLeaf]
    decide +kernel
  refine @nodup_hashes _ [162, 243, 205, 102, 69] ?_ (by decide)
  simp only [List.map_cons, List.map_nil, val_hash_firstLeaf, val_hash_lastLeaf,
    val_hash_manyRoot, val_hash_changedLeaf, hroot, List.head?_cons]

/-- A changed value and an added key, in trees with an internal chunk that share their first leaf.
-/
theorem diff_exact_difference_changedMap : ∃ depth entries,
    (∀ fuel ≥ depth, diffExact fuel (Blake3.hash manyRoot) (Blake3.hash changedRoot)
      (buildProllyTree changedMap (buildProllyTree manyMap ChunkStore.empty 0).2 0).2 =
        some (.ok entries)) ∧
      DiffEntry.modified [32] [] [1] ∈ entries ∧ DiffEntry.rightOnly [33] [2] ∈ entries ∧
      ∀ value, DiffEntry.leftOnly [0] value ∉ entries := by
  have hleft : (buildProllyTree manyMap ChunkStore.empty 0).1 = .ok (Blake3.hash manyRoot) := by
    rw [buildProllyTree, buildWrites_manyMap]
  have hright :
      (buildProllyTree changedMap ChunkStore.empty 0).1 = .ok (Blake3.hash changedRoot) := by
    rw [buildProllyTree, buildWrites_changedMap]
  have hhash : Set.InjOn Blake3.hash
      (ChunkStore.empty.contents ∪ written manyMap 0 ∪ written changedMap 0) := by
    rw [ChunkStore.contents_empty, Set.empty_union]
    refine injOn_of_nodup nodup_hashes_changed ?_
    rintro data (hdata | hdata)
    · exact List.mem_append_left [changedLeaf, changedRoot] (mem_written_manyMap hdata)
    · have hmem := mem_written_changedMap hdata
      simp only [List.mem_cons, List.not_mem_nil, or_false] at hmem ⊢
      rcases hmem with hfirst | hlast
      · exact .inl hfirst
      · exact .inr (.inr (.inr hlast))
  obtain ⟨depth, entries, hdiff, -, hentries⟩ :=
    ((diff_exact_difference hleft hright).2 hhash).1
  refine ⟨depth, entries, hdiff, (hentries _).mpr ?_, (hentries _).mpr ?_, fun value hmem => ?_⟩
  · exact ⟨by decide +kernel, by decide +kernel, by decide⟩
  · exact ⟨by decide +kernel, by decide +kernel⟩
  · have hsome : changedMap[([0] : Bytes)]? ≠ none := by decide +kernel
    exact hsome ((hentries _).mp hmem).2

end Sample

end Ferratomic.Prolly
