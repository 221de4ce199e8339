import Mathlib

/-!
# Sorting by a key

`sortByKey` is a stable sort by a key, and `repeatsKey` looks for two neighbours of one key. After
the sort it finds any two items of one key (`repeatsKey_sortByKey`), and when it finds none the
result is the one arrangement of the items in which the keys ascend (`sortByKey_eq_iff`).
-/

namespace Ferratomic.Lib

variable {ι κ : Type} [LinearOrder κ] (key : ι → κ)

/-- Sort by a key; items of one key keep their order. -/
def sortByKey (items : List ι) : List ι :=
  items.insertionSort fun a b => key a ≤ key b

/-- Two neighbours have the same key. -/
def repeatsKey : List ι → Bool
  | a :: b :: rest => key a = key b || repeatsKey (b :: rest)
  | _ => false

variable {key}

/-- Sorting by key permutes the items. -/
theorem perm_sortByKey (items : List ι) : (sortByKey key items).Perm items :=
  List.perm_insertionSort _ items

/-- Items sorted by key ascend by key. -/
theorem pairwise_sortByKey (items : List ι) :
    (sortByKey key items).Pairwise fun a b => key a ≤ key b := by
  have htotal : Std.Total fun a b : ι => key a ≤ key b := ⟨fun a b => le_total (key a) (key b)⟩
  have htrans : IsTrans ι fun a b => key a ≤ key b := ⟨fun _ _ _ => le_trans⟩
  exact List.pairwise_insertionSort _ items

/-- In a sorted list the neighbours show whether a key is repeated. -/
theorem repeatsKey_eq_false {items : List ι} (h : items.Pairwise fun a b => key a ≤ key b) :
    repeatsKey key items = false ↔ items.Pairwise fun a b => key a < key b := by
  induction items with
  | nil => simp [repeatsKey]
  | cons first rest ih =>
      obtain ⟨hfirst, hrest⟩ := List.pairwise_cons.mp h
      cases rest with
      | nil => simp [repeatsKey]
      | cons second rest =>
          simp only [repeatsKey, Bool.or_eq_false_iff, decide_eq_false_iff_not, ih hrest]
          constructor
          · rintro ⟨hne, hlater⟩
            refine List.pairwise_cons.mpr ⟨fun a ha => ?_, hlater⟩
            have hlt : key first < key second :=
              lt_of_le_of_ne (hfirst second List.mem_cons_self) hne
            rcases List.mem_cons.mp ha with rfl | ha
            · exact hlt
            · exact hlt.trans ((List.pairwise_cons.mp hlater).1 a ha)
          · intro hascending
            obtain ⟨hfirst, hlater⟩ := List.pairwise_cons.mp hascending
            exact ⟨(hfirst second List.mem_cons_self).ne, hlater⟩

/-- Items whose keys ascend strictly have different keys. -/
theorem nodup_keys {items : List ι} (h : items.Pairwise fun a b => key a < key b) :
    (items.map key).Nodup :=
  List.pairwise_map.mpr (h.imp fun hlt => hlt.ne)

/-- Sorting brings equal keys together. -/
theorem repeatsKey_sortByKey (items : List ι) :
    repeatsKey key (sortByKey key items) = false ↔ (items.map key).Nodup := by
  rw [repeatsKey_eq_false (pairwise_sortByKey items)]
  have hperm : ((sortByKey key items).map key).Perm (items.map key) :=
    (perm_sortByKey items).map key
  constructor
  · intro hascending
    exact hperm.nodup_iff.mp (nodup_keys hascending)
  · intro hnodup
    have hne : (sortByKey key items).Pairwise fun a b => key a ≠ key b :=
      List.pairwise_map.mp (hperm.nodup_iff.mpr hnodup)
    exact ((pairwise_sortByKey items).and hne).imp fun h => lt_of_le_of_ne h.1 h.2

/-- A list of different keys is its own sort when the keys ascend. -/
theorem sortByKey_eq_iff {items : List ι} (h : (items.map key).Nodup) :
    sortByKey key items = items ↔ items.Pairwise fun a b => key a < key b := by
  have hsorted : (sortByKey key items).Pairwise fun a b => key a < key b :=
    (repeatsKey_eq_false (pairwise_sortByKey items)).mp ((repeatsKey_sortByKey items).mpr h)
  constructor
  · intro hitems
    rwa [hitems] at hsorted
  · intro hascending
    have hanti : ∀ a b : ι, key a < key b → key b < key a → a = b :=
      fun a b hlt hgt => absurd hgt hlt.asymm
    exact (perm_sortByKey items).eq_of_pairwise (fun a b _ _ => hanti a b) hsorted hascending

/-- Sorting the images of items sorts the items by the key of their image. -/
theorem sortByKey_map {α : Type} (f : α → ι) (items : List α) :
    sortByKey key (items.map f) = (sortByKey (key ∘ f) items).map f := by
  refine (List.map_insertionSort _ _ f items fun a _ b _ => ?_).symm
  rfl

end Ferratomic.Lib
