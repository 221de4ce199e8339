import Ferratomic.Lib.OrdMap

/-!
# Maps to lists of values

An ordered map that holds a list of values for each key, as it is filled by pushing one value after
the other. A key has the values that were pushed for it, in their order (`values_pushAll`), and the
map holds as many values as were pushed (`total_pushAll`).
-/

namespace Ferratomic.Lib

variable {K V : Type} [LinearOrder K]

/-- A map from keys to lists of values. -/
abbrev MultiMap (K V : Type) [LinearOrder K] := OrdMap K (List V)

namespace MultiMap

/-- The values of a key. -/
def values (map : MultiMap K V) (key : K) : List V :=
  map[key]?.getD []

/-- Add a value after those of its key. -/
def push (map : MultiMap K V) (key : K) (value : V) : MultiMap K V :=
  map.alter key fun found => some (found.getD [] ++ [value])

/-- Push values one after the other. -/
def pushAll (map : MultiMap K V) (entries : List (K × V)) : MultiMap K V :=
  entries.foldl (fun map entry => push map entry.1 entry.2) map

/-- The number of values of all keys. -/
def total (map : MultiMap K V) : Nat :=
  (map.toList.map fun entry => entry.2.length).sum

variable {map : MultiMap K V} {entries : List (K × V)}

/-- The empty map has no values. -/
theorem values_empty (key : K) : values (∅ : MultiMap K V) key = [] := by
  rw [values, Std.ExtTreeMap.getElem?_empty]
  rfl

/-- A push appends its value to those of its key. -/
theorem values_push (key probe : K) (value : V) :
    values (push map key value) probe =
      if key = probe then values map probe ++ [value] else values map probe := by
  rw [values, push, OrdMap.getElem?_alter_eq]
  split
  case isTrue h =>
      subst h
      rfl
  case isFalse => rfl

/-- A key has the values that were pushed for it. -/
theorem values_pushAll (map : MultiMap K V) (entries : List (K × V)) (probe : K) :
    values (pushAll map entries) probe =
      values map probe ++ (entries.filter (·.1 = probe)).map Prod.snd := by
  induction entries generalizing map with
  | nil => exact (List.append_nil _).symm
  | cons entry rest ih =>
      rw [pushAll, List.foldl_cons]
      refine (ih _).trans ?_
      rw [values_push]
      by_cases h : entry.1 = probe
      · simp [h]
      · simp [h]

/-- A key is in the map when it was there or a value was pushed for it. -/
theorem isSome_pushAll (map : MultiMap K V) (entries : List (K × V)) (probe : K) :
    (pushAll map entries)[probe]?.isSome ↔ map[probe]?.isSome ∨ probe ∈ entries.map Prod.fst := by
  induction entries generalizing map with
  | nil => simp [pushAll]
  | cons entry rest ih =>
      rw [pushAll, List.foldl_cons, List.map_cons, List.mem_cons]
      refine (ih _).trans ?_
      rw [push, OrdMap.getElem?_alter_eq]
      by_cases h : entry.1 = probe
      · simp [h]
      · simp [h, Ne.symm h]

/-- The keys of a map that was empty are those of the pushed values, each once. -/
theorem keys_pushAll (entries : List (K × V)) :
    ((pushAll ∅ entries).toList.map Prod.fst).Perm (entries.map Prod.fst).dedup := by
  have hnodup : ((pushAll ∅ entries).toList.map Prod.fst).Nodup :=
    List.pairwise_map.mpr ((OrdMap.pairwise_keys_toList _).imp fun hlt => hlt.ne)
  refine (List.perm_ext_iff_of_nodup hnodup (List.nodup_dedup _)).mpr fun key => ?_
  rw [List.mem_dedup, List.mem_map]
  have hsome := isSome_pushAll (∅ : MultiMap K V) entries key
  rw [Std.ExtTreeMap.getElem?_empty, Option.isSome_none, Option.isSome_iff_exists] at hsome
  constructor
  · rintro ⟨⟨_, found⟩, hmem, rfl⟩
    exact (hsome.mp ⟨found, OrdMap.mem_toList.mp hmem⟩).resolve_left Bool.false_ne_true
  · intro hmem
    obtain ⟨found, hfound⟩ := hsome.mpr (.inr hmem)
    exact ⟨(key, found), OrdMap.mem_toList.mpr hfound, rfl⟩

/-- A map that was empty holds the values that were pushed. -/
theorem total_pushAll (entries : List (K × V)) :
    total (pushAll ∅ entries) = entries.length := by
  have hlength : ∀ entry ∈ (pushAll ∅ entries).toList,
      entry.2.length = (entries.map Prod.fst).count entry.1 := by
    rintro ⟨key, found⟩ hmem
    have hfound := values_pushAll (∅ : MultiMap K V) entries key
    rw [values_empty, List.nil_append, values, OrdMap.mem_toList.mp hmem, Option.getD_some]
      at hfound
    rw [hfound, List.length_map, List.count, List.countP_map, List.countP_eq_length_filter]
    rfl
  calc total (pushAll ∅ entries)
      = ((pushAll ∅ entries).toList.map fun entry => (entries.map Prod.fst).count entry.1).sum :=
        congrArg List.sum (List.map_congr_left hlength)
    _ = (((pushAll ∅ entries).toList.map Prod.fst).map ((entries.map Prod.fst).count ·)).sum := by
        rw [List.map_map]
        rfl
    _ = ((entries.map Prod.fst).dedup.map ((entries.map Prod.fst).count ·)).sum :=
        ((keys_pushAll entries).map _).sum_eq
    _ = entries.length := by
        rw [List.sum_map_count_dedup_eq_length, List.length_map]

end MultiMap

end Ferratomic.Lib
