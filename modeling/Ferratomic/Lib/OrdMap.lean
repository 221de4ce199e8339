import Mathlib

/-!
# Ordered maps and their pointwise unions

An ordered map is an extensional tree map over a linear order, so two maps are equal when every
lookup agrees. `unionWith combine left right` folds the entries of `right` into `left` and
combines the values of shared keys. The main theorem is its lookup law `getElem?_unionWith`,
from which commutativity, associativity and idempotence of `combine` lift to whole maps, also
through several layers of nesting.
-/

namespace Ferratomic.Lib

open Std (ExtTreeMap Commutative Associative IdempotentOp)

variable {K V W : Type} [LinearOrder K]

instance instTransCmpCompare (K : Type) [LinearOrder K] : Std.TransCmp (α := K) compare :=
  inferInstance

/-- A map ordered by its keys. -/
abbrev OrdMap (K V : Type) [LinearOrder K] := ExtTreeMap K V compare

namespace OrdMap

/-- Maps with equal lookups are equal. -/
theorem ext {a b : OrdMap K V} (h : ∀ key : K, a[key]? = b[key]?) : a = b :=
  ExtTreeMap.ext_getElem? h

/-- Lookup after an insertion. -/
theorem getElem?_insert_eq (map : OrdMap K V) (key probe : K) (value : V) :
    (map.insert key value)[probe]? = if key = probe then some value else map[probe]? := by
  simp only [ExtTreeMap.getElem?_insert, compare_eq_iff_eq]

/-- Lookup after an alteration. -/
theorem getElem?_alter_eq (map : OrdMap K V) (key probe : K) (f : Option V → Option V) :
    (map.alter key f)[probe]? = if key = probe then f map[key]? else map[probe]? := by
  simp only [ExtTreeMap.getElem?_alter, compare_eq_iff_eq]

/-- Lookup after an erasure. -/
theorem getElem?_erase_eq (map : OrdMap K V) (key probe : K) :
    (map.erase key)[probe]? = if key = probe then none else map[probe]? := by
  simp only [ExtTreeMap.getElem?_erase, compare_eq_iff_eq]

/-- Lookup in a filtered and mapped map. -/
theorem getElem?_filterMap_eq (f : K → V → Option W) (map : OrdMap K V) (probe : K) :
    (map.filterMap f)[probe]? = map[probe]?.bind (f probe) := by
  rw [ExtTreeMap.getElem?_filterMap']

/-- A listed entry is a lookup. -/
theorem mem_toList {map : OrdMap K V} {key : K} {value : V} :
    (key, value) ∈ map.toList ↔ map[key]? = some value :=
  ExtTreeMap.mem_toList_iff_getElem?_eq_some

/-- The entries of a map come in strictly ascending key order. -/
theorem pairwise_keys_toList (map : OrdMap K V) :
    map.toList.Pairwise fun a b => a.1 < b.1 := by
  have h := ExtTreeMap.ordered_keys_toList (t := map)
  simpa only [compare_lt_iff_lt] using h

/-- Add one entry of the right map to a left map, combining the values of a shared key. -/
def unionStep (combine : V → V → V) (map : OrdMap K V) (key : K) (value : V) : OrdMap K V :=
  map.alter key fun
    | none => some value
    | some left => some (combine left value)

/-- The union of two maps, with `combine left right` at shared keys. -/
def unionWith (combine : V → V → V) (left right : OrdMap K V) : OrdMap K V :=
  right.foldl (unionStep combine) left

/-- One step of the union changes the lookup of its own key only. -/
theorem getElem?_unionStep (combine : V → V → V) (map : OrdMap K V) (key probe : K) (value : V) :
    (unionStep combine map key value)[probe]? =
      if key = probe then Option.merge combine map[probe]? (some value) else map[probe]? := by
  rw [unionStep, getElem?_alter_eq]
  split
  case isTrue h =>
      subst h
      cases map[key]? <;> rfl
  case isFalse => rfl

/-- Folding a list of entries with distinct keys combines each with the value found first. -/
theorem getElem?_foldl_unionStep (combine : V → V → V) (entries : List (K × V))
    (hkeys : entries.Pairwise fun a b => a.1 < b.1) (map : OrdMap K V) (probe : K) :
    (entries.foldl (fun m entry => unionStep combine m entry.1 entry.2) map)[probe]? =
      Option.merge combine map[probe]? ((entries.find? fun e => e.1 = probe).map Prod.snd) := by
  induction entries generalizing map with
  | nil => simp
  | cons entry entries ih =>
      obtain ⟨hhead, htail⟩ := List.pairwise_cons.mp hkeys
      rw [List.foldl_cons, ih htail, getElem?_unionStep]
      by_cases h : entry.1 = probe
      · have hnone : entries.find? (fun e => decide (e.1 = probe)) = none := by
          simp only [List.find?_eq_none, decide_eq_true_eq]
          intro other hother heq
          exact absurd (hhead other hother) (by rw [h, heq]; exact lt_irrefl probe)
        simp [h, hnone]
      · simp [h]

/-- The value a map's entry list holds at a key is its lookup. -/
theorem find?_toList (map : OrdMap K V) (probe : K) :
    (map.toList.find? fun e => e.1 = probe).map Prod.snd = map[probe]? := by
  cases hfind : map.toList.find? (fun e => decide (e.1 = probe)) with
  | none =>
      simp only [List.find?_eq_none, decide_eq_true_eq] at hfind
      cases hlookup : map[probe]? with
      | none => rfl
      | some value => exact absurd rfl (hfind _ (mem_toList.mpr hlookup))
  | some entry =>
      have hkey : entry.1 = probe := by simpa using List.find?_some hfind
      have hmem : (entry.1, entry.2) ∈ map.toList := List.mem_of_find?_eq_some hfind
      rw [← hkey, mem_toList.mp hmem]
      rfl

/-- The lookup law: a union combines the two lookups. -/
theorem getElem?_unionWith (combine : V → V → V) (left right : OrdMap K V) (probe : K) :
    (unionWith combine left right)[probe]? =
      Option.merge combine left[probe]? right[probe]? := by
  rw [unionWith, ExtTreeMap.foldl_eq_foldl_toList,
    getElem?_foldl_unionStep combine _ (pairwise_keys_toList right), find?_toList]

/-- The union commutes when the combination does. -/
theorem unionWith_comm (combine : V → V → V) [Commutative combine] (a b : OrdMap K V) :
    unionWith combine a b = unionWith combine b a :=
  ext fun key => by
    rw [getElem?_unionWith, getElem?_unionWith, (Option.commutative_merge combine).comm]

/-- The union is associative when the combination is. -/
theorem unionWith_assoc (combine : V → V → V) [Associative combine] (a b c : OrdMap K V) :
    unionWith combine (unionWith combine a b) c = unionWith combine a (unionWith combine b c) :=
  ext fun key => by
    simp only [getElem?_unionWith, (Option.associative_merge combine).assoc]

/-- The union is idempotent when the combination is. -/
theorem unionWith_self (combine : V → V → V) [IdempotentOp combine] (a : OrdMap K V) :
    unionWith combine a a = a :=
  ext fun key => by
    rw [getElem?_unionWith, (Option.idempotentOp_merge combine).idempotent]

instance (combine : V → V → V) [Commutative combine] :
    Commutative (unionWith (K := K) combine) :=
  ⟨unionWith_comm combine⟩

instance (combine : V → V → V) [Associative combine] :
    Associative (unionWith (K := K) combine) :=
  ⟨unionWith_assoc combine⟩

instance (combine : V → V → V) [IdempotentOp combine] :
    IdempotentOp (unionWith (K := K) combine) :=
  ⟨unionWith_self combine⟩

section Nested

variable {L : Type} [LinearOrder L]

/-- The value at a pair of keys of a map of maps. -/
def get₂ (map : OrdMap K (OrdMap L V)) (outer : K) (inner : L) : Option V :=
  map[outer]?.bind fun entries => entries[inner]?

/-- Insert at a pair of keys, creating the inner map where it is missing. -/
def insert₂ (map : OrdMap K (OrdMap L V)) (outer : K) (inner : L) (value : V) :
    OrdMap K (OrdMap L V) :=
  map.insert outer ((map[outer]?.getD ∅).insert inner value)

/-- Every inner map has an entry. -/
def NoEmpty (map : OrdMap K (OrdMap L V)) : Prop :=
  ∀ (outer : K) (entries : OrdMap L V), map[outer]? = some entries →
    ∃ (inner : L) (value : V), entries[inner]? = some value

/-- The empty map has nothing at any two keys. -/
@[simp]
theorem get₂_empty (outer : K) (inner : L) :
    get₂ (∅ : OrdMap K (OrdMap L V)) outer inner = none := by
  simp [get₂]

/-- The empty map has no empty inner map. -/
theorem noEmpty_empty : NoEmpty (∅ : OrdMap K (OrdMap L V)) := by
  intro outer entries h
  simp at h

/-- An inner lookup through a default of no entries. -/
theorem getElem?_getD_eq_get₂ (map : OrdMap K (OrdMap L V)) (outer : K) (inner : L) :
    (map[outer]?.getD ∅)[inner]? = get₂ map outer inner := by
  unfold get₂
  cases map[outer]? with
  | none => simp
  | some entries => simp

/-- Lookup after an insertion at a pair of keys. -/
theorem get₂_insert₂ (map : OrdMap K (OrdMap L V)) (outer o : K) (inner i : L) (value : V) :
    get₂ (insert₂ map outer inner value) o i =
      if outer = o ∧ inner = i then some value else get₂ map o i := by
  rw [insert₂, get₂, getElem?_insert_eq]
  by_cases ho : outer = o
  · subst ho
    simp only [if_true, Option.bind_some, true_and, getElem?_insert_eq, getElem?_getD_eq_get₂]
  · simp only [ho, if_false, false_and]
    rfl

/-- An insertion at two keys leaves no inner map empty. -/
theorem NoEmpty.insert₂ {map : OrdMap K (OrdMap L V)} (h : NoEmpty map) (outer : K) (inner : L)
    (value : V) : NoEmpty (insert₂ map outer inner value) := by
  intro o entries hentries
  rw [OrdMap.insert₂, getElem?_insert_eq] at hentries
  split at hentries
  case isTrue =>
      cases hentries
      exact ⟨inner, value, by simp⟩
  case isFalse => exact h o entries hentries

/-- Maps of non-empty maps with equal lookups at all pairs are equal. -/
theorem ext₂ {a b : OrdMap K (OrdMap L V)} (ha : NoEmpty a) (hb : NoEmpty b)
    (h : ∀ outer inner, get₂ a outer inner = get₂ b outer inner) : a = b := by
  refine ext fun outer => ?_
  cases hx : a[outer]? with
  | none =>
      cases hy : b[outer]? with
      | none => rfl
      | some right =>
          obtain ⟨inner, value, hvalue⟩ := hb outer right hy
          have := h outer inner
          simp [get₂, hx, hy, hvalue] at this
  | some left =>
      cases hy : b[outer]? with
      | none =>
          obtain ⟨inner, value, hvalue⟩ := ha outer left hx
          have := h outer inner
          simp [get₂, hx, hy, hvalue] at this
      | some right =>
          refine congrArg some (ext fun inner => ?_)
          simpa [get₂, hx, hy] using h outer inner

/-- A nested union combines the lookups at a pair of keys. -/
theorem get₂_unionWith (combine : V → V → V) (a b : OrdMap K (OrdMap L V)) (outer : K)
    (inner : L) :
    get₂ (unionWith (unionWith combine) a b) outer inner =
      Option.merge combine (get₂ a outer inner) (get₂ b outer inner) := by
  unfold get₂
  rw [getElem?_unionWith]
  cases a[outer]? with
  | none => simp
  | some left =>
      cases b[outer]? with
      | none => simp
      | some right => simp [getElem?_unionWith]

/-- A union leaves no inner map empty. -/
theorem NoEmpty.unionWith {combine : V → V → V} {a b : OrdMap K (OrdMap L V)} (ha : NoEmpty a)
    (hb : NoEmpty b) : NoEmpty (unionWith (unionWith combine) a b) := by
  intro outer entries h
  rw [getElem?_unionWith, Option.merge_eq_some_iff] at h
  rcases h with ⟨hleft, -⟩ | ⟨-, hright⟩ | ⟨left, right, hleft, -, rfl⟩
  · exact ha outer entries hleft
  · exact hb outer entries hright
  · obtain ⟨inner, value, hvalue⟩ := ha outer left hleft
    refine ⟨inner, (right[inner]?.elim value (combine value)), ?_⟩
    rw [getElem?_unionWith, hvalue]
    cases right[inner]? <;> rfl

end Nested

end OrdMap

end Ferratomic.Lib
