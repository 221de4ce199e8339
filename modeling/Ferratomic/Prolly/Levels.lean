import Ferratomic.Prolly.Accepted
import Ferratomic.Prolly.Tree

/-!
# The sizes of chunks and the height of a tree

Every group of a split but the last has at least the minimum size, and no group exceeds the maximum,
whatever the keys hash to (`bounded_splitAtBoundaries`). A level of two or more children has
therefore a shorter level above it, and the recursion of `build_internal_nodes`, which the source
does not bound, ends within as many calls as the lowest level has children (`internalNodesRun_eq`).
It ends in a root exactly when the separators can be encoded (`exists_root_iff`). The main theorem,
`chunking_bounds`, puts these together for every pattern width.
-/

namespace Ferratomic.Prolly

open Lib

/-- The groups of a split: the items in their order, in groups of bounded sizes. -/
structure Bounded {α : Type} (items : List α) (groups : List (List α)) : Prop where
  concat : groups.flatten = items
  nonempty : ∀ group ∈ groups, group ≠ []
  inner : ∀ group ∈ groups.dropLast, minChunkSize ≤ group.length ∧ group.length ≤ maxChunkSize
  last : ∀ group ∈ groups.getLast?, group.length ≤ maxChunkSize

section Split

variable [Blake3DeriveKey] {α : Type} {key : α → Bytes} {patternWidth : Fin 64}

/-- Every group but the last has at least the minimal chunk size. -/
theorem minChunkSize_le_of_mem_splitLoop {current items group : List α}
    (h : group ∈ (splitLoop key patternWidth current items).dropLast) :
    minChunkSize ≤ group.length := by
  induction items generalizing current with
  | nil =>
      unfold splitLoop at h
      split at h
      case isTrue => cases h
      case isFalse => cases h
  | cons item rest ih =>
      unfold splitLoop at h
      split at h
      case isTrue hsplit =>
          -- a group that a boundary ends; the remainder after the last boundary is the last group
          have hboundary := minChunkSize_le_of_isBoundary (Bool.and_eq_true_iff.mp hsplit).2
          cases hlater : splitLoop key patternWidth [] rest with
          | nil =>
              rw [hlater] at h
              cases h
          | cons next later =>
              rw [List.dropLast_cons_of_ne_nil (by rw [hlater]; exact List.cons_ne_nil _ _)] at h
              obtain hfirst | hrest := List.mem_cons.mp h
              · rw [hfirst]
                exact hboundary
              · exact ih hrest
      case isFalse => exact ih h

/-- The bounds hold for every list of items, whether all of its keys hash to a boundary or none. -/
theorem bounded_splitAtBoundaries (items : List α) :
    Bounded items (splitAtBoundaries key patternWidth items) where
  concat := flatten_splitAtBoundaries items
  nonempty _ hgroup := ne_nil_of_mem_splitAtBoundaries hgroup
  inner _ hgroup := ⟨minChunkSize_le_of_mem_splitLoop hgroup,
    length_le_of_mem_splitAtBoundaries (List.mem_of_mem_dropLast hgroup)⟩
  last _ hgroup := length_le_of_mem_splitAtBoundaries (List.mem_of_getLast? hgroup)

end Split

section Levels

variable [Blake3] [Blake3DeriveKey]

/-- The level above a level of children, with the chunks that it puts. -/
def nextLevel (patternWidth : Fin 64) (level : UInt8) (children : List Child) :
    Except FerraError (List Child) × List Chunk :=
  putGroups (serializeInternalChunk level) Prod.fst
    (splitAtBoundaries Prod.fst patternWidth children)

/-- `build_internal_nodes` as the source has it, without a reason why it ends: the outcome of at
most so many calls, if they are enough. -/
def internalNodesRun (patternWidth : Fin 64) :
    Nat → UInt8 → List Child → Option (Except FerraError Hash × List Chunk)
  | 0, _, _ => none
  | calls + 1, level, children =>
      match children with
      | [child] => some (.ok child.2, [])
      | children =>
          let put := nextLevel patternWidth level children
          match put.1 with
          | .error e => some (.error e, put.2)
          | .ok next =>
              (internalNodesRun patternWidth calls
                  (if level = 255 then 255 else level + 1) next).map
                fun above => (above.1, put.2 ++ above.2)

variable {patternWidth : Fin 64} {level : UInt8} {children : List Child}

/-- A level of two or more children has a level above it, and a shorter one. -/
theorem length_nextLevel {next : List Child} (hmany : 2 ≤ children.length)
    (h : (nextLevel patternWidth level children).1 = .ok next) :
    next ≠ [] ∧ next.length < children.length := by
  have hne : children ≠ [] := List.ne_nil_of_length_pos (by omega)
  obtain ⟨hnext, hlength⟩ := length_putGroups_split hne h
  exact ⟨hnext, hlength (by omega)⟩

/-- A level can be put exactly when its separators can be encoded. -/
theorem exists_nextLevel_iff :
    (∃ next, (nextLevel patternWidth level children).1 = .ok next) ↔
      ∀ child ∈ children, child.1.length < 2 ^ 32 := by
  constructor
  · intro hput child hchild
    obtain ⟨next, hput⟩ := hput
    have hitems : (splitAtBoundaries Prod.fst patternWidth children).flatten = children :=
      flatten_splitAtBoundaries children
    rw [← hitems] at hchild
    obtain ⟨group, hgroup, hmem⟩ := List.mem_flatten.mp hchild
    have hdata := exists_of_putGroups hput group hgroup
    exact (exists_serializeInternalChunk_iff.mp hdata).2 child hmem
  · intro hfits
    obtain ⟨next, hput, -⟩ := @putGroups_ok _ _ (serializeInternalChunk level) Prod.fst
      (splitAtBoundaries Prod.fst patternWidth children) fun group hgroup =>
        exists_serializeInternalChunk (length_lt_of_mem_splitAtBoundaries hgroup)
          fun child hchild => hfits child (mem_of_mem_splitAtBoundaries hgroup hchild)
    exact ⟨next, hput⟩

/-- The separators of a level are separators of the level below. -/
theorem separators_nextLevel {next : List Child}
    (h : (nextLevel patternWidth level children).1 = .ok next) :
    ∀ child ∈ next, child.1.length < 2 ^ 32 := by
  have hfits := exists_nextLevel_iff.mp ⟨next, h⟩
  obtain ⟨found, hfound, hput⟩ := @putGroups_ok _ _ (serializeInternalChunk level) Prod.fst
    (splitAtBoundaries Prod.fst patternWidth children) fun group hgroup =>
      exists_of_putGroups h group hgroup
  obtain rfl : found = next := Except.ok.inj (hfound.symm.trans h)
  exact sized_separators hfits hput

/-- A level that cannot be put ends the recursion. -/
theorem buildInternalNodes_error {e : FerraError} (hne : children ≠ [])
    (hmany : children.length ≠ 1) (h : (nextLevel patternWidth level children).1 = .error e) :
    buildInternalNodes patternWidth level children hne =
      (.error e, (nextLevel patternWidth level children).2) := by
  rw [buildInternalNodes, dif_neg hmany]
  simp only
  split
  case h_1 found hfound =>
      cases h.symm.trans hfound
      rfl
  case h_2 next hnext => cases h.symm.trans hnext

/-- The recursion goes on from a level that was put. -/
theorem buildInternalNodes_next {next : List Child} (hne : children ≠ [])
    (hmany : children.length ≠ 1) (h : (nextLevel patternWidth level children).1 = .ok next)
    (habove : next ≠ []) :
    buildInternalNodes patternWidth level children hne =
      let above :=
        buildInternalNodes patternWidth (if level = 255 then 255 else level + 1) next habove
      (above.1, (nextLevel patternWidth level children).2 ++ above.2) := by
  rw [buildInternalNodes, dif_neg hmany]
  simp only
  split
  case h_1 e herror => cases h.symm.trans herror
  case h_2 found hfound =>
      cases h.symm.trans hfound
      rfl

/-- As many calls as there are children are enough. -/
theorem internalNodesRun_eq {calls : Nat} (hne : children ≠ []) (hcalls : children.length ≤ calls) :
    internalNodesRun patternWidth calls level children =
      some (buildInternalNodes patternWidth level children hne) := by
  induction calls generalizing level children with
  | zero =>
      have hpos := List.length_pos_iff.mpr hne
      omega
  | succ calls ih =>
      unfold internalNodesRun
      split
      case h_1 child => rw [buildInternalNodes_singleton]
      case h_2 hsingle =>
          have hone : children.length ≠ 1 := by
            intro hone
            obtain ⟨child, hchild⟩ := List.length_eq_one_iff.mp hone
            exact hsingle child hchild
          have hpos := List.length_pos_iff.mpr hne
          cases hput : (nextLevel patternWidth level children).1 with
          | error e =>
              rw [buildInternalNodes_error hne hone hput]
              simp only [hput]
          | ok next =>
              -- the level above is shorter, so that one call less is enough for it
              obtain ⟨habove, hshorter⟩ := length_nextLevel (by omega) hput
              rw [buildInternalNodes_next hne hone hput habove]
              simp only [hput]
              rw [ih habove (by omega)]
              rfl

/-- The levels end in a root exactly when there is only one child, or every separator can be
encoded. -/
theorem exists_root_iff (hne : children ≠ []) :
    (∃ root, (buildInternalNodes patternWidth level children hne).1 = .ok root) ↔
      children.length = 1 ∨ ∀ child ∈ children, child.1.length < 2 ^ 32 := by
  -- on the number of children; the separators of a level are among those of the level below
  induction hlength : children.length using Nat.strong_induction_on
    generalizing children level with
  | _ length ih =>
      subst hlength
      by_cases hone : children.length = 1
      · obtain ⟨child, rfl⟩ := List.length_eq_one_iff.mp hone
        rw [buildInternalNodes_singleton]
        exact iff_of_true ⟨child.2, rfl⟩ (.inl hone)
      · have hpos := List.length_pos_iff.mpr hne
        cases hput : (nextLevel patternWidth level children).1 with
        | error e =>
            rw [buildInternalNodes_error hne hone hput]
            constructor
            · intro hroot
              obtain ⟨root, hroot⟩ := hroot
              cases hroot
            · intro hfits
              obtain ⟨next, hnext⟩ := exists_nextLevel_iff.mpr (hfits.resolve_left hone)
              cases hput.symm.trans hnext
        | ok next =>
            obtain ⟨habove, hshorter⟩ := length_nextLevel (by omega) hput
            rw [buildInternalNodes_next hne hone hput habove]
            have hfits := exists_nextLevel_iff.mp ⟨next, hput⟩
            exact iff_of_true ((ih next.length hshorter habove rfl).mpr
              (.inr (separators_nextLevel hput))) (.inr hfits)

end Levels

section Bounds

variable [Blake3] [Blake3DeriveKey]

/-- The sizes of groups, the lengths of levels and the end of the recursion for a pattern width. -/
structure ChunkingBounds (patternWidth : Fin 64) : Prop where
  entries : ∀ kvs : List KvEntry, Bounded kvs (splitAtBoundaries Prod.fst patternWidth kvs)
  children : ∀ children : List Child,
    Bounded children (splitAtBoundaries Prod.fst patternWidth children)
  shorter : ∀ (level : UInt8) (children next : List Child), 2 ≤ children.length →
    (nextLevel patternWidth level children).1 = .ok next →
      next ≠ [] ∧ next.length < children.length
  ends : ∀ (level : UInt8) (children : List Child) (hne : children ≠ []) (calls : Nat),
    children.length ≤ calls → internalNodesRun patternWidth calls level children =
      some (buildInternalNodes patternWidth level children hne)
  root : ∀ (level : UInt8) (children : List Child) (hne : children ≠ []),
    (∃ root, (buildInternalNodes patternWidth level children hne).1 = .ok root) ↔
      children.length = 1 ∨ ∀ child ∈ children, child.1.length < 2 ^ 32
  tree : ∀ kvs : OrdMap Bytes Bytes, (∃ root, (buildWrites kvs patternWidth).1 = .ok root) ↔
    ∀ entry ∈ kvs.toList, Sized entry

/-- Splitting keeps to the sizes of chunks, levels become shorter, and a build ends in one root
whenever the lengths of the entries fit the format. -/
theorem chunking_bounds (patternWidth : Fin 64) : ChunkingBounds patternWidth where
  entries kvs := bounded_splitAtBoundaries kvs
  children children := bounded_splitAtBoundaries children
  shorter level children next hmany hnext := length_nextLevel hmany hnext
  ends level children hne calls hcalls := internalNodesRun_eq hne hcalls
  root level children hne := exists_root_iff hne
  tree kvs := by
    constructor
    · intro hroot
      obtain ⟨root, hroot⟩ := hroot
      exact sized_of_buildWrites hroot
    · intro hsized
      obtain ⟨_, _, root, hroot, -⟩ := buildWrites_ok patternWidth hsized
      exact ⟨root, hroot⟩

end Bounds

end Ferratomic.Prolly
