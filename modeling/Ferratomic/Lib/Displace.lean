import Mathlib

/-!
# Hash and displace

Items stand in buckets, and all items of a bucket go to the slots that one displacement of the
bucket gives them. A bucket takes the first displacement for which its slots are free. The main
theorem is `Table.place_holds`: a placement that succeeds gives every item a slot that holds what
belongs to it.
-/

namespace Ferratomic.Lib

variable {ι : Type} {numBuckets numSlots : Nat}

/-- Put an item at the end of its bucket. -/
def pushItem (bucketOf : ι → Fin numBuckets) (buckets : Vector (List ι) numBuckets) (item : ι) :
    Vector (List ι) numBuckets :=
  buckets.set (bucketOf item) (buckets[bucketOf item] ++ [item])

/-- Put items into their buckets. -/
def distribute (bucketOf : ι → Fin numBuckets) (items : List ι) : Vector (List ι) numBuckets :=
  items.foldl (pushItem bucketOf) (Vector.replicate numBuckets [])

/-- The slots of items, unless one is occupied or two of them are the same. -/
def freeSlots (slot : ι → Fin numSlots) (occupied : Vector Bool numSlots)
    (used : List (Fin numSlots)) : List ι → Option (List (Fin numSlots))
  | [] => some used
  | item :: rest =>
      if occupied[slot item] ∨ slot item ∈ used then none
      else freeSlots slot occupied (used ++ [slot item]) rest

/-- What is placed so far. -/
structure Table (numBuckets numSlots : Nat) where
  displacements : Vector Nat numBuckets
  occupied : Vector Bool numSlots
  content : Vector Nat numSlots

namespace Table

/-- Nothing is placed, and every slot holds a filler. -/
def empty (numBuckets numSlots filler : Nat) : Table numBuckets numSlots :=
  ⟨.replicate numBuckets 0, .replicate numSlots false, .replicate numSlots filler⟩

/-- Occupy a slot. -/
def occupy (table : Table numBuckets numSlots) (slot : Fin numSlots) (value : Nat) :
    Table numBuckets numSlots :=
  { table with
    occupied := table.occupied.set slot true
    content := table.content.set slot value }

/-- Set the displacement of a bucket. -/
def displace (table : Table numBuckets numSlots) (bucket : Fin numBuckets) (d : Nat) :
    Table numBuckets numSlots :=
  { table with displacements := table.displacements.set bucket d }

/-- A slot is occupied and holds a value. -/
def Holds (table : Table numBuckets numSlots) (slot : Fin numSlots) (value : Nat) : Prop :=
  table.occupied[slot] = true ∧ table.content[slot] = value

variable (bound : Nat)
  (attempt : Nat → Vector Bool numSlots → List ι → Option (List (Fin numSlots)))
  (value : ι → Nat) (buckets : Vector (List ι) numBuckets)

/-- Occupy the slots of the items of a bucket. -/
def fill (table : Table numBuckets numSlots) (items : List (Fin numSlots × ι)) :
    Table numBuckets numSlots :=
  items.foldl (fun table item => table.occupy item.1 (value item.2)) table

/-- Place a bucket with the first displacement for which an attempt gives slots. -/
def placeBucket (table : Table numBuckets numSlots) (bucket : Fin numBuckets) :
    Option (Table numBuckets numSlots) :=
  if buckets[bucket] = [] then some table
  else do
    let (d, slots) ← (List.range bound).findSome? fun d => do
      let slots ← attempt d table.occupied buckets[bucket]
      pure (d, slots)
    pure ((table.displace bucket d).fill value (slots.zip buckets[bucket]))

/-- Place buckets one after the other. -/
def place (table : Table numBuckets numSlots) (order : List (Fin numBuckets)) :
    Option (Table numBuckets numSlots) :=
  order.foldlM (placeBucket bound attempt value buckets) table

end Table

section Spec

variable {bound : Nat} {slot : Nat → ι → Fin numSlots}
  {attempt : Nat → Vector Bool numSlots → List ι → Option (List (Fin numSlots))} {value : ι → Nat}
  {buckets : Vector (List ι) numBuckets} {bucketOf : ι → Fin numBuckets}

/-- An item is pushed to its own bucket. -/
theorem mem_pushItem {item i : ι} {bucket : Fin numBuckets} :
    i ∈ (pushItem bucketOf buckets item)[bucket] ↔
      i ∈ buckets[bucket] ∨ i = item ∧ bucketOf i = bucket := by
  unfold pushItem
  by_cases hbucket : bucketOf item = bucket
  · subst hbucket
    rw [Fin.getElem_fin, Vector.getElem_set_self, List.mem_append, List.mem_singleton]
    exact or_congr_right (iff_self_and.mpr fun heq => by rw [heq])
  · have hne : (bucketOf item).val ≠ bucket.val := fun heq => hbucket (Fin.ext heq)
    rw [Fin.getElem_fin, Vector.getElem_set_ne (bucketOf item).isLt bucket.isLt hne]
    refine (or_iff_left ?_).symm
    rintro ⟨rfl, heq⟩
    exact hbucket heq

/-- The buckets hold the items that belong to them. -/
theorem mem_distribute {items : List ι} {bucket : Fin numBuckets} {i : ι} :
    i ∈ (distribute bucketOf items)[bucket] ↔ i ∈ items ∧ bucketOf i = bucket := by
  unfold distribute
  induction items using List.reverseRecOn with
  | nil =>
      rw [List.foldl_nil, Fin.getElem_fin, Vector.getElem_replicate]
      exact iff_of_false List.not_mem_nil fun h => List.not_mem_nil h.1
  | append_singleton items item ih =>
      rw [List.foldl_append, List.foldl_cons, List.foldl_nil, mem_pushItem, ih, List.mem_append,
        List.mem_singleton, or_and_right]

/-- Slots that are found are those of the items, none of them twice and none of them occupied. -/
theorem freeSlots_eq_some_append {slot : ι → Fin numSlots} {occupied : Vector Bool numSlots}
    {used slots : List (Fin numSlots)} {items : List ι} (hnodup : used.Nodup)
    (hfree : ∀ s ∈ used, occupied[s] = false)
    (h : freeSlots slot occupied used items = some slots) :
    slots = used ++ items.map slot ∧ slots.Nodup ∧ ∀ s ∈ slots, occupied[s] = false := by
  induction items generalizing used with
  | nil =>
      cases h
      exact ⟨by rw [List.map_nil, List.append_nil], hnodup, hfree⟩
  | cons item rest ih =>
      rw [freeSlots] at h
      split at h
      case isTrue => cases h
      case isFalse hnew =>
        rw [not_or, Bool.not_eq_true] at hnew
        have hnodup' : (used ++ [slot item]).Nodup :=
          List.nodup_append.mpr ⟨hnodup, List.nodup_singleton _, fun s hs s' hs' => by
            rw [List.mem_singleton.mp hs']
            rintro rfl
            exact hnew.2 hs⟩
        have hfree' : ∀ s ∈ used ++ [slot item], occupied[s] = false := by
          intro s hs
          rcases List.mem_append.mp hs with hs | hs
          · exact hfree s hs
          · rw [List.mem_singleton.mp hs]
            exact hnew.1
        obtain ⟨hslots, hrest⟩ := ih hnodup' hfree' h
        refine ⟨?_, hrest⟩
        rw [hslots, List.append_assoc, List.singleton_append, List.map_cons]

/-- Slots are free when they are distinct and none of them is occupied. -/
theorem freeSlots_eq_some {slot : ι → Fin numSlots} {occupied : Vector Bool numSlots}
    {slots : List (Fin numSlots)} {items : List ι}
    (h : freeSlots slot occupied [] items = some slots) :
    slots = items.map slot ∧ slots.Nodup ∧ ∀ s ∈ slots, occupied[s] = false := by
  obtain ⟨hslots, hspec⟩ := freeSlots_eq_some_append List.nodup_nil nofun h
  exact ⟨hslots.trans (List.nil_append _), hspec⟩

namespace Table

/-- Filling slots keeps the displacements and what stands in other slots. -/
theorem fill_other (value : ι → Nat) (table : Table numBuckets numSlots)
    (items : List (Fin numSlots × ι)) :
    (table.fill value items).displacements = table.displacements ∧
      ∀ s, s ∉ items.map Prod.fst →
        (table.fill value items).occupied[s] = table.occupied[s] ∧
          (table.fill value items).content[s] = table.content[s] := by
  induction items generalizing table with
  | nil => exact ⟨rfl, fun s _ => ⟨rfl, rfl⟩⟩
  | cons item items ih =>
      obtain ⟨hdisplacements, hother⟩ := ih (table.occupy item.1 (value item.2))
      refine ⟨hdisplacements, fun s hs => ?_⟩
      rw [List.map_cons, List.mem_cons, not_or] at hs
      have hne : item.1.val ≠ s.val := fun heq => hs.1 (Fin.ext heq.symm)
      obtain ⟨hoccupied, hcontent⟩ := hother s hs.2
      refine ⟨hoccupied.trans ?_, hcontent.trans ?_⟩
      · exact Vector.getElem_set_ne item.1.isLt s.isLt hne
      · exact Vector.getElem_set_ne item.1.isLt s.isLt hne

/-- Filling different slots puts the values of the items there. -/
theorem fill_self (table : Table numBuckets numSlots) {items : List (Fin numSlots × ι)}
    (hnodup : (items.map Prod.fst).Nodup) {s : Fin numSlots} {i : ι} (hmem : (s, i) ∈ items) :
    (table.fill value items).Holds s (value i) := by
  induction items generalizing table with
  | nil => cases hmem
  | cons item items ih =>
      rw [List.map_cons, List.nodup_cons] at hnodup
      rcases List.mem_cons.mp hmem with rfl | hmem
      · obtain ⟨-, hother⟩ := fill_other value (table.occupy s (value i)) items
        obtain ⟨hoccupied, hcontent⟩ := hother s hnodup.1
        refine ⟨hoccupied.trans ?_, hcontent.trans ?_⟩
        · exact Vector.getElem_set_self _
        · exact Vector.getElem_set_self _
      · exact ih _ hnodup.2 hmem

/-- The items of the given buckets have slots that are occupied and hold their values. -/
def Placed (slot : Nat → ι → Fin numSlots) (value : ι → Nat) (bucketOf : ι → Fin numBuckets)
    (table : Table numBuckets numSlots) (done : List (Fin numBuckets)) : Prop :=
  ∀ i, bucketOf i ∈ done → table.Holds (slot table.displacements[bucketOf i] i) (value i)

/-- An attempt gives the slots of a displacement, none of them twice and none of them occupied. -/
def Fits (attempt : Nat → Vector Bool numSlots → List ι → Option (List (Fin numSlots)))
    (slot : Nat → ι → Fin numSlots) : Prop :=
  ∀ d occupied items slots, attempt d occupied items = some slots →
    slots = items.map (slot d) ∧ slots.Nodup ∧ ∀ s ∈ slots, occupied[s] = false

/-- A bucket that is placed gets a displacement that sends its items to free slots. -/
theorem placeBucket_eq_some (hfits : Fits attempt slot)
    {table table' : Table numBuckets numSlots} {bucket : Fin numBuckets}
    (h : placeBucket bound attempt value buckets table bucket = some table') :
    (buckets[bucket] = [] ∧ table' = table) ∨
      ∃ d, (buckets[bucket].map (slot d)).Nodup ∧
        (∀ s ∈ buckets[bucket].map (slot d), table.occupied[s] = false) ∧
        table' = (table.displace bucket d).fill value
          (buckets[bucket].map fun i => (slot d i, i)) := by
  unfold placeBucket at h
  split at h
  case isTrue hempty =>
    cases h
    exact .inl ⟨hempty, rfl⟩
  case isFalse =>
    obtain ⟨⟨d, slots⟩, hfind, htable⟩ := Option.bind_eq_some_iff.mp h
    obtain ⟨d', -, hattempt⟩ := List.exists_of_findSome?_eq_some hfind
    obtain ⟨slots', hslots, hpair⟩ := Option.bind_eq_some_iff.mp hattempt
    cases hpair
    cases htable
    obtain ⟨rfl, hnodup, hfree⟩ := hfits _ _ _ _ hslots
    refine .inr ⟨d, hnodup, hfree, ?_⟩
    rw [List.map_prod_right_eq_zip]

/-- Placing one more bucket keeps what is placed. -/
theorem placeBucket_placed (hfits : Fits attempt slot)
    (hbuckets : ∀ b i, i ∈ buckets[b] ↔ bucketOf i = b)
    {table table' : Table numBuckets numSlots} {done : List (Fin numBuckets)}
    {bucket : Fin numBuckets} (hnew : bucket ∉ done)
    (hplaced : Placed slot value bucketOf table done)
    (h : placeBucket bound attempt value buckets table bucket = some table') :
    Placed slot value bucketOf table' (bucket :: done) := by
  intro i hi
  rw [List.mem_cons] at hi
  rcases placeBucket_eq_some hfits h with ⟨hempty, rfl⟩ | ⟨d, hnodup, hfree, rfl⟩
  · refine hplaced i (hi.resolve_left fun hbucket => ?_)
    have hmem := (hbuckets bucket i).mpr hbucket
    rw [hempty] at hmem
    cases hmem
  · have hslots : ((buckets[bucket].map fun i => (slot d i, i)).map Prod.fst) =
        buckets[bucket].map (slot d) := List.map_map
    obtain ⟨hdisplacements, hother⟩ :=
      fill_other value (table.displace bucket d)
        (buckets[bucket].map fun i => (slot d i, i))
    -- the items of the bucket are where it put them, and no slot of an earlier bucket was free
    rcases hi with rfl | hi
    · have hd : (table.displace (bucketOf i) d).displacements[bucketOf i] = d :=
        Vector.getElem_set_self _
      rw [hdisplacements, hd]
      refine fill_self _ (by rw [hslots]; exact hnodup) ?_
      exact List.mem_map.mpr ⟨i, (hbuckets _ i).mpr rfl, rfl⟩
    · have hne : bucket.val ≠ (bucketOf i).val := fun heq => hnew (Fin.ext heq ▸ hi)
      have hd : (table.displace bucket d).displacements[bucketOf i] =
          table.displacements[bucketOf i] :=
        Vector.getElem_set_ne bucket.isLt (bucketOf i).isLt hne
      obtain ⟨hoccupied, hcontent⟩ := hplaced i hi
      have hnot : slot table.displacements[bucketOf i] i ∉
          (buckets[bucket].map fun i => (slot d i, i)).map Prod.fst := by
        rw [hslots]
        intro hmem
        rw [hfree _ hmem] at hoccupied
        cases hoccupied
      obtain ⟨hoccupied', hcontent'⟩ := hother _ hnot
      rw [hdisplacements, hd]
      exact ⟨hoccupied'.trans hoccupied, hcontent'.trans hcontent⟩

/-- A placement that succeeds places one bucket after the other. -/
theorem place_placed (hfits : Fits attempt slot)
    (hbuckets : ∀ b i, i ∈ buckets[b] ↔ bucketOf i = b)
    {table table' : Table numBuckets numSlots} {done order : List (Fin numBuckets)}
    (hnodup : order.Nodup) (hnew : ∀ b ∈ order, b ∉ done)
    (hplaced : Placed slot value bucketOf table done)
    (h : place bound attempt value buckets table order = some table') :
    Placed slot value bucketOf table' (order.reverse ++ done) := by
  induction order generalizing table done with
  | nil =>
      cases h
      exact hplaced
  | cons bucket order ih =>
      obtain ⟨hfresh, hnodup⟩ := List.nodup_cons.mp hnodup
      obtain ⟨next, hnext, hrest⟩ := Option.bind_eq_some_iff.mp h
      have hplaced' :=
        placeBucket_placed hfits hbuckets (hnew bucket List.mem_cons_self) hplaced hnext
      rw [List.reverse_cons, List.append_assoc, List.singleton_append]
      refine ih hnodup (fun b hb hmem => ?_) hplaced' hrest
      rcases List.mem_cons.mp hmem with rfl | hmem
      · exact hfresh hb
      · exact hnew b (List.mem_cons_of_mem _ hb) hmem

/-- A placement of all buckets that succeeds gives every item a slot that holds its value. -/
theorem place_holds (hfits : Fits attempt slot)
    (hbuckets : ∀ b i, i ∈ buckets[b] ↔ bucketOf i = b)
    {table table' : Table numBuckets numSlots} {order : List (Fin numBuckets)}
    (horder : order.Perm (List.finRange numBuckets))
    (h : place bound attempt value buckets table order = some table') (i : ι) :
    table'.Holds (slot table'.displacements[bucketOf i] i) (value i) := by
  have hnodup : order.Nodup := horder.nodup_iff.mpr (List.nodup_finRange _)
  have hplaced := place_placed hfits hbuckets hnodup (fun _ _ => List.not_mem_nil) nofun h
  refine hplaced i (List.mem_append_left [] (List.mem_reverse.mpr ?_))
  exact horder.mem_iff.mpr (List.mem_finRange _)

end Table

end Spec

end Ferratomic.Lib
