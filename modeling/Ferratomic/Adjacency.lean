import Ferratomic.Lib.MultiMap
import Ferratomic.Intern
import Ferratomic.Positions
import Ferratomic.Store.LiveState

/-!
# The adjacency index

Two maps over the LIVE references of a datom array: from each entity to those it refers to, and from
each entity to those that refer to it, with the identifiers of the attributes. Both are filled from
one list of edges (`fromCanonical_eq`), in which no edge occurs twice because a triple has one LIVE
position at most. The main theorem, `adjacency_exact`, says which edges there are.
-/

namespace Ferratomic

open Lib

/-- `AdjacencyIndex`: the references from and to each entity. -/
structure AdjacencyIndex where
  forward : MultiMap EntityId (AttributeId × EntityId)
  reverse : MultiMap EntityId (AttributeId × EntityId)

namespace AdjacencyIndex

/-- The loop body of `from_canonical`: index the datom of a position. -/
def indexPosition (liveBits : List Bool) (intern : AttributeIntern) (index : AdjacencyIndex)
    (entry : Datom × Nat) : AdjacencyIndex :=
  let (datom, pos) := entry
  if liveBits[pos]? ≠ some true then index
  else
    match datom.value with
    | .ref target =>
        match intern.idOf datom.attr with
        | none => index
        | some attrId =>
            { forward := index.forward.push datom.entity (attrId, target)
              reverse := index.reverse.push target (attrId, datom.entity) }
    | _ => index

/-- `from_canonical`: index the LIVE references of an array. -/
def fromCanonical (datoms : List Datom) (liveBits : List Bool) (intern : AttributeIntern) :
    AdjacencyIndex :=
  datoms.zipIdx.foldl (indexPosition liveBits intern) ⟨∅, ∅⟩

/-- `neighbors` -/
def neighbors (index : AdjacencyIndex) (entity : EntityId) : List (AttributeId × EntityId) :=
  index.forward.values entity

/-- `reverse_neighbors` -/
def reverseNeighbors (index : AdjacencyIndex) (entity : EntityId) : List (AttributeId × EntityId) :=
  index.reverse.values entity

/-- `total_edges` -/
def totalEdges (index : AdjacencyIndex) : Nat :=
  index.forward.total

section Edges

/-- A reference with the identifier of its attribute. -/
@[ext]
structure Edge where
  source : EntityId
  attr : AttributeId
  target : EntityId
  deriving DecidableEq

/-- The entity that a value refers to. -/
def refTarget : Value → Option EntityId
  | .ref target => some target
  | _ => none

/-- The edge of a position. -/
def edgeAt (liveBits : List Bool) (intern : AttributeIntern) (entry : Datom × Nat) : Option Edge :=
  if liveBits[entry.2]? = some true then
    (refTarget entry.1.value).bind fun target =>
      (intern.idOf entry.1.attr).map fun attrId => ⟨entry.1.entity, attrId, target⟩
  else none

/-- The edges of an array. -/
def edges (datoms : List Datom) (liveBits : List Bool) (intern : AttributeIntern) : List Edge :=
  datoms.zipIdx.filterMap (edgeAt liveBits intern)

variable {datoms : List Datom} {liveBits : List Bool} {intern : AttributeIntern}

/-- A position adds its edge to both maps. -/
theorem indexPosition_eq (index : AdjacencyIndex) (entry : Datom × Nat) :
    indexPosition liveBits intern index entry =
      match edgeAt liveBits intern entry with
      | none => index
      | some edge =>
          { forward := index.forward.push edge.source (edge.attr, edge.target)
            reverse := index.reverse.push edge.target (edge.attr, edge.source) } := by
  obtain ⟨datom, pos⟩ := entry
  by_cases hlive : liveBits[pos]? = some true
  · rw [indexPosition, edgeAt, if_pos hlive, if_neg (not_not.mpr hlive)]
    cases datom.value with
    | ref target => cases intern.idOf datom.attr <;> rfl
    | _ => rfl
  · rw [indexPosition, edgeAt, if_neg hlive, if_pos hlive]

/-- The two maps hold the edges by source and by target. -/
theorem fromCanonical_eq :
    fromCanonical datoms liveBits intern =
      { forward := MultiMap.pushAll ∅ ((edges datoms liveBits intern).map fun edge =>
          (edge.source, edge.attr, edge.target))
        reverse := MultiMap.pushAll ∅ ((edges datoms liveBits intern).map fun edge =>
          (edge.target, edge.attr, edge.source)) } := by
  have hfold (positions : List (Datom × Nat)) (index : AdjacencyIndex) :
      positions.foldl (indexPosition liveBits intern) index =
        { forward := index.forward.pushAll ((positions.filterMap (edgeAt liveBits intern)).map
            fun edge => (edge.source, edge.attr, edge.target))
          reverse := index.reverse.pushAll ((positions.filterMap (edgeAt liveBits intern)).map
            fun edge => (edge.target, edge.attr, edge.source)) } := by
    induction positions generalizing index with
    | nil => rfl
    | cons entry rest ih =>
        rw [List.foldl_cons, ih, indexPosition_eq]
        cases hedge : edgeAt liveBits intern entry with
        | none => rw [List.filterMap_cons_none hedge]
        | some edge =>
            rw [List.filterMap_cons_some hedge]
            rfl
  exact hfold datoms.zipIdx ⟨∅, ∅⟩

/-- The neighbors of an entity are the targets of its edges. -/
theorem neighbors_fromCanonical (entity : EntityId) :
    (fromCanonical datoms liveBits intern).neighbors entity =
      ((edges datoms liveBits intern).filter (·.source = entity)).map
        fun edge => (edge.attr, edge.target) := by
  rw [neighbors, fromCanonical_eq, MultiMap.values_pushAll, MultiMap.values_empty, List.nil_append,
    List.filter_map, List.map_map]
  exact congrArg _ (List.filter_congr fun edge _ => decide_eq_decide.mpr Iff.rfl)

/-- The reverse neighbors of an entity are the sources of the edges to it. -/
theorem reverseNeighbors_fromCanonical (entity : EntityId) :
    (fromCanonical datoms liveBits intern).reverseNeighbors entity =
      ((edges datoms liveBits intern).filter (·.target = entity)).map
        fun edge => (edge.attr, edge.source) := by
  rw [reverseNeighbors, fromCanonical_eq, MultiMap.values_pushAll, MultiMap.values_empty,
    List.nil_append,
    List.filter_map, List.map_map]
  exact congrArg _ (List.filter_congr fun edge _ => decide_eq_decide.mpr Iff.rfl)

/-- An entity is a neighbor exactly when there is an edge to it. -/
theorem mem_neighbors {source target : EntityId} {attr : AttributeId} :
    (attr, target) ∈ (fromCanonical datoms liveBits intern).neighbors source ↔
      ⟨source, attr, target⟩ ∈ edges datoms liveBits intern := by
  simp only [neighbors_fromCanonical, List.mem_map, List.mem_filter, decide_eq_true_eq,
    Prod.mk.injEq]
  constructor
  · rintro ⟨⟨_, _, _⟩, ⟨hmem, rfl⟩, rfl, rfl⟩
    exact hmem
  · intro hmem
    exact ⟨_, ⟨hmem, rfl⟩, rfl, rfl⟩

/-- An entity is a reverse neighbor exactly when there is an edge from it. -/
theorem mem_reverseNeighbors {source target : EntityId} {attr : AttributeId} :
    (attr, source) ∈ (fromCanonical datoms liveBits intern).reverseNeighbors target ↔
      ⟨source, attr, target⟩ ∈ edges datoms liveBits intern := by
  simp only [reverseNeighbors_fromCanonical, List.mem_map, List.mem_filter, decide_eq_true_eq,
    Prod.mk.injEq]
  constructor
  · rintro ⟨⟨_, _, _⟩, ⟨hmem, rfl⟩, rfl, rfl⟩
    exact hmem
  · intro hmem
    exact ⟨_, ⟨hmem, rfl⟩, rfl, rfl⟩

/-- Where no edge occurs twice, none occurs twice among the neighbors of an entity. -/
theorem nodup_neighbors (h : (edges datoms liveBits intern).Nodup) (entity : EntityId) :
    ((fromCanonical datoms liveBits intern).neighbors entity).Nodup ∧
      ((fromCanonical datoms liveBits intern).reverseNeighbors entity).Nodup := by
  rw [neighbors_fromCanonical, reverseNeighbors_fromCanonical]
  constructor
  · refine List.Nodup.map_on (fun edge hedge other hother heq => ?_) (h.filter _)
    obtain ⟨hattr, htarget⟩ := Prod.mk.inj heq
    have hsource := decide_eq_true_iff.mp (List.mem_filter.mp hedge).2
    exact Edge.ext (hsource.trans (decide_eq_true_iff.mp (List.mem_filter.mp hother).2).symm)
      hattr htarget
  · refine List.Nodup.map_on (fun edge hedge other hother heq => ?_) (h.filter _)
    obtain ⟨hattr, hsource⟩ := Prod.mk.inj heq
    have htarget := decide_eq_true_iff.mp (List.mem_filter.mp hedge).2
    exact Edge.ext hsource hattr
      (htarget.trans (decide_eq_true_iff.mp (List.mem_filter.mp hother).2).symm)

/-- The total counts every edge. -/
theorem totalEdges_fromCanonical :
    (fromCanonical datoms liveBits intern).totalEdges = (edges datoms liveBits intern).length := by
  rw [totalEdges, fromCanonical_eq, MultiMap.total_pushAll, List.length_map]

/-- Only a reference has a target, the entity it names. -/
theorem refTarget_eq_some {value : Value} {target : EntityId} :
    refTarget value = some target ↔ value = .ref target := by
  cases value with
  | ref entity => simp [refTarget]
  | _ => exact iff_of_false nofun nofun

/-- An edge comes from a live datom of an interned attribute that is a reference. -/
theorem edgeAt_eq_some {d : Datom} {i : Nat} {edge : Edge} :
    edgeAt liveBits intern (d, i) = some edge ↔
      liveBits[i]? = some true ∧ d.entity = edge.source ∧ intern.idOf d.attr = some edge.attr ∧
        d.value = .ref edge.target := by
  rw [edgeAt]
  split
  case isTrue hlive =>
      rw [Option.bind_eq_some_iff]
      simp only [Option.map_eq_some_iff, refTarget_eq_some]
      constructor
      · rintro ⟨target, hvalue, attr, hid, rfl⟩
        exact ⟨hlive, rfl, hid, hvalue⟩
      · rintro ⟨-, hentity, hid, hvalue⟩
        exact ⟨edge.target, hvalue, edge.attr, hid, Edge.ext hentity rfl rfl⟩
  case isFalse hlive => exact iff_of_false nofun fun h => hlive h.1

/-- The edges are those of the marked positions. -/
theorem mem_edges {edge : Edge} :
    edge ∈ edges datoms liveBits intern ↔
      ∃ (d : Datom) (i : Nat), datoms[i]? = some d ∧ liveBits[i]? = some true ∧
        d.entity = edge.source ∧ intern.idOf d.attr = some edge.attr ∧
        d.value = .ref edge.target := by
  simp only [edges, List.mem_filterMap, Prod.exists, List.mk_mem_zipIdx_iff_getElem?,
    edgeAt_eq_some]

end Edges

section Live

variable {canonical : List Datom} {intern : AttributeIntern}

/-- The last datom of the run of a triple. -/
def lastOfRun (canonical : List Datom) (key : EntityId × Attribute × Value) : Option Datom :=
  (canonical.filter (·.runKey = key)).getLast?

/-- The bits set in the vector are the LIVE bits. -/
theorem getElem?_buildLiveBitvectorPub {i : Nat} :
    (buildLiveBitvectorPub canonical)[i]? = some true ↔ i ∈ buildLiveRoaring canonical := by
  rw [buildLiveBitvectorPub, bitsOfPositions, getElem?_foldl_set, List.length_replicate,
    buildLiveRoaring, List.mem_toFinset]
  by_cases hmem : i ∈ livePositionsKernel canonical
  · simp [hmem, lt_of_mem_livePositionsKernel hmem]
  · simp [hmem, List.getElem?_replicate]

/-- A position is LIVE when its datom ends its run and asserts. -/
theorem live_iff_lastOfRun (hsorted : canonical.Pairwise (· < ·))
    (hbound : canonical.length ≤ u32Max + 1) {i : Nat} {d : Datom} (hd : canonical[i]? = some d) :
    (buildLiveBitvectorPub canonical)[i]? = some true ↔
      lastOfRun canonical d.runKey = some d ∧ d.op = .assert := by
  rw [getElem?_buildLiveBitvectorPub, live_position_iff hsorted hbound, lastOfRun,
    getLast?_eq_some_iff_of_ascending (hsorted.filter _)]
  simp only [hd, Option.some.injEq, List.mem_filter, decide_eq_true_eq]
  constructor
  · rintro ⟨_, rfl, hop, hmax⟩
    exact ⟨⟨⟨List.mem_of_getElem? hd, trivial⟩, fun d' hd' => hmax d' hd'.1 hd'.2⟩, hop⟩
  · rintro ⟨⟨-, hmax⟩, hop⟩
    exact ⟨d, rfl, hop, fun d' hd' hrun => hmax d' ⟨hd', hrun⟩⟩

/-- The scan marks positions only. -/
theorem le_of_mem_livePositions {K : Type} [DecidableEq K] {start : Nat} {entries : List (K × Op)}
    {i : Nat} (h : i ∈ livePositionsFromSortedRuns start entries) : i ≤ u32Max := by
  fun_induction livePositionsFromSortedRuns start entries with
  | case1 => cases h
  | case2 start key op rest run last lastOp later hop ih =>
      rcases List.mem_cons.mp h with rfl | hlater
      · exact Nat.min_le_right last u32Max
      · exact ih hlater
  | case3 start key op rest run last lastOp later hop ih => exact ih h

/-- The last datom of a run is one of the datoms, of that run. -/
theorem mem_of_lastOfRun {key : EntityId × Attribute × Value} {d : Datom}
    (h : lastOfRun canonical key = some d) : d ∈ canonical ∧ d.runKey = key := by
  simpa using List.mem_filter.mp (List.mem_of_getLast? h)

/-- The edges are the references whose run ends with an assertion. -/
theorem mem_edges_iff (hsorted : canonical.Pairwise (· < ·))
    (hbound : canonical.length ≤ u32Max + 1) (hinverse : intern.Inverse) {edge : Edge} :
    edge ∈ edges canonical (buildLiveBitvectorPub canonical) intern ↔
      ∃ attr, intern.resolve edge.attr = some attr ∧
        ∃ d, lastOfRun canonical (edge.source, attr, .ref edge.target) = some d ∧
          d.op = .assert := by
  rw [mem_edges]
  constructor
  · rintro ⟨d, i, hd, hlive, hentity, hid, hvalue⟩
    rw [live_iff_lastOfRun hsorted hbound hd, Datom.runKey, hentity, hvalue] at hlive
    exact ⟨d.attr, (hinverse _ _).mp hid, d, hlive⟩
  · rintro ⟨attr, hresolve, d, hlast, hop⟩
    obtain ⟨hmem, hkey⟩ := mem_of_lastOfRun hlast
    obtain ⟨i, hd⟩ := List.mem_iff_getElem?.mp hmem
    obtain ⟨hentity, hattr, hvalue⟩ : d.entity = edge.source ∧ d.attr = attr ∧
        d.value = .ref edge.target := by simpa [Datom.runKey] using hkey
    refine ⟨d, i, hd, ?_, hentity, ?_, hvalue⟩
    · rw [live_iff_lastOfRun hsorted hbound hd, hkey]
      exact ⟨hlast, hop⟩
    · rw [hattr]
      exact (hinverse _ _).mpr hresolve

/-- No edge occurs twice: its triple has one LIVE position. -/
theorem nodup_edges (hsorted : canonical.Pairwise (· < ·)) (hbound : canonical.length ≤ u32Max + 1)
    (hinverse : intern.Inverse) :
    (edges canonical (buildLiveBitvectorPub canonical) intern).Nodup := by
  have hpositions : canonical.zipIdx.Nodup := by
    refine List.Nodup.of_map Prod.snd ?_
    rw [List.zipIdx_map_snd]
    exact List.nodup_range'
  refine List.pairwise_filterMap.mpr (hpositions.imp_of_mem ?_)
  rintro ⟨d, i⟩ ⟨d', i'⟩ hmem hmem' hne edge hedge _ hedge' rfl
  rw [List.mk_mem_zipIdx_iff_getElem?] at hmem hmem'
  obtain ⟨hlive, hentity, hid, hvalue⟩ := edgeAt_eq_some.mp hedge
  obtain ⟨hlive', hentity', hid', hvalue'⟩ := edgeAt_eq_some.mp hedge'
  have hkey : d.runKey = d'.runKey := by
    rw [Datom.runKey, Datom.runKey, hentity, hentity', hvalue, hvalue', hinverse.idOf_inj hid hid']
  rw [live_iff_lastOfRun hsorted hbound hmem] at hlive
  rw [live_iff_lastOfRun hsorted hbound hmem', ← hkey] at hlive'
  obtain rfl : d = d' := Option.some.inj (hlive.1.symm.trans hlive'.1)
  obtain ⟨hi, heq⟩ := List.getElem?_eq_some_iff.mp hmem
  obtain ⟨hi', heq'⟩ := List.getElem?_eq_some_iff.mp hmem'
  have hnodup : canonical.Nodup := hsorted.imp fun hlt => hlt.ne
  exact hne (congrArg (d, ·) ((hnodup.getElem_inj_iff).mp (heq.trans heq'.symm)))

/-- As many edges as LIVE references with interned attributes. -/
theorem length_edges (hsorted : canonical.Pairwise (· < ·))
    (hbound : canonical.length ≤ u32Max + 1) :
    (edges canonical (buildLiveBitvectorPub canonical) intern).length =
      (canonical.filter fun d => (lastOfRun canonical d.runKey = some d ∧ d.op = .assert) ∧
        (refTarget d.value).isSome ∧ (intern.idOf d.attr).isSome).length := by
  have hsome {d : Datom} {i : Nat} (hd : canonical[i]? = some d) :
      (edgeAt (buildLiveBitvectorPub canonical) intern (d, i)).isSome ↔
        (lastOfRun canonical d.runKey = some d ∧ d.op = .assert) ∧
          (refTarget d.value).isSome ∧ (intern.idOf d.attr).isSome := by
    rw [← live_iff_lastOfRun hsorted hbound hd, Option.isSome_iff_exists]
    simp only [edgeAt_eq_some, Option.isSome_iff_exists, refTarget_eq_some]
    constructor
    · rintro ⟨edge, hlive, -, hid, hvalue⟩
      exact ⟨hlive, ⟨_, hvalue⟩, _, hid⟩
    · rintro ⟨hlive, ⟨target, hvalue⟩, attr, hid⟩
      exact ⟨⟨d.entity, attr, target⟩, hlive, rfl, hid, hvalue⟩
  have hcount (p : Datom → Bool) : canonical.countP p = canonical.zipIdx.countP (p ∘ Prod.fst) := by
    rw [← List.countP_map, List.zipIdx_map_fst]
  rw [edges, List.length_filterMap_eq_countP, ← List.countP_eq_length_filter, hcount]
  refine List.countP_congr fun entry hentry => ?_
  rw [hsome (List.mem_zipIdx_iff_getElem?.mp hentry)]
  exact decide_eq_true_iff.symm

/-- What the adjacency index of an array holds. -/
structure Exact (canonical : List Datom) (intern : AttributeIntern) (index : AdjacencyIndex) :
    Prop where
  /-- An edge goes forward from its source where it goes back from its target. -/
  symmetric : ∀ source attr target,
    (attr, target) ∈ index.neighbors source ↔ (attr, source) ∈ index.reverseNeighbors target
  /-- The edges are the references whose run ends with an assertion. -/
  edge_iff : ∀ source attr target, (attr, target) ∈ index.neighbors source ↔
    ∃ name, intern.resolve attr = some name ∧
      ∃ d, lastOfRun canonical (source, name, .ref target) = some d ∧ d.op = .assert
  /-- Each edge occurs once on each side. -/
  once : ∀ source attr target, (attr, target) ∈ index.neighbors source →
    (index.neighbors source).count (attr, target) = 1 ∧
      (index.reverseNeighbors target).count (attr, source) = 1
  /-- There are as many edges as LIVE references with interned attributes. -/
  total : index.totalEdges =
    (canonical.filter fun d => (lastOfRun canonical d.runKey = some d ∧ d.op = .assert) ∧
      (refTarget d.value).isSome ∧ (intern.idOf d.attr).isSome).length

/-- The adjacency index of an ascending array within the position space, with its LIVE bits and a
table of attributes: the two maps are transposes of each other, an edge is in them when the last
datom of its run asserts it, once on each side. -/
theorem adjacency_exact {attrs : List Attribute} (hsorted : canonical.Pairwise (· < ·))
    (hbound : canonical.length ≤ u32Max + 1)
    (hintern : AttributeIntern.fromAttributes attrs = .ok intern) :
    Exact canonical intern
      (fromCanonical canonical (buildLiveBitvectorPub canonical) intern) := by
  obtain ⟨hinverse, -⟩ := AttributeIntern.fromAttributes_spec hintern
  have hnodup := nodup_edges hsorted hbound hinverse
  exact {
    symmetric := fun _ _ _ => mem_neighbors.trans mem_reverseNeighbors.symm
    edge_iff := fun _ _ _ => mem_neighbors.trans (mem_edges_iff hsorted hbound hinverse)
    once := fun source _ target hmem =>
      ⟨List.count_eq_one_of_mem (nodup_neighbors hnodup source).1 hmem,
        List.count_eq_one_of_mem (nodup_neighbors hnodup target).2
          (mem_reverseNeighbors.mpr (mem_neighbors.mp hmem))⟩
    total := totalEdges_fromCanonical.trans (length_edges hsorted hbound) }

end Live

end AdjacencyIndex

open Sample

namespace AdjacencyIndex

/-- The sample attribute is interned. -/
theorem exists_fromAttributes_link :
    ∃ intern, AttributeIntern.fromAttributes ["link"] = .ok intern :=
  AttributeIntern.exists_fromAttributes (by decide)

/-- Two references to one entity. -/
theorem adjacency_exact_linked :
    ∃ intern, AttributeIntern.fromAttributes ["link"] = .ok intern ∧
      (linkedUpTo 2).Pairwise (· < ·) ∧ (linkedUpTo 2).length ≤ u32Max + 1 ∧
      Exact (linkedUpTo 2) intern
        (fromCanonical (linkedUpTo 2) (buildLiveBitvectorPub (linkedUpTo 2)) intern) := by
  obtain ⟨intern, hintern⟩ := exists_fromAttributes_link
  have hbound : (linkedUpTo 2).length ≤ u32Max + 1 := by
    rw [length_linkedUpTo (by decide)]
    decide
  exact ⟨intern, hintern, sorted_linkedUpTo 2, hbound,
    adjacency_exact (sorted_linkedUpTo 2) hbound hintern⟩

/-- A reference ends its run. -/
theorem lastOfRun_linkedUpTo {count : Nat} (hcount : count ≤ 256 ^ 32) {d : Datom}
    (hd : d ∈ linkedUpTo count) :
    lastOfRun (linkedUpTo count) (d.entity, "link", .ref (numberedEntity 0)) = some d ∧
      d.op = .assert := by
  obtain ⟨number, -, rfl⟩ := mem_linkedUpTo.mp hd
  rw [lastOfRun, getLast?_eq_some_iff_of_ascending ((sorted_linkedUpTo count).filter _)]
  refine ⟨⟨List.mem_filter.mpr ⟨hd, decide_eq_true rfl⟩, fun d' hd' => ?_⟩, rfl⟩
  obtain ⟨hmem, hkey⟩ := List.mem_filter.mp hd'
  have hentity : d'.entity = (linked number).entity :=
    congrArg Prod.fst (decide_eq_true_iff.mp hkey)
  exact (List.inj_on_of_nodup_map (nodup_entity_linkedUpTo hcount) hmem hd hentity).le

/-- The sample attribute is resolved by its identifier. -/
theorem resolve_link {intern : AttributeIntern}
    (h : AttributeIntern.fromAttributes ["link"] = .ok intern) :
    intern.resolve ⟨0⟩ = some "link" := by
  rw [AttributeIntern.resolve, (AttributeIntern.fromAttributes_spec h).2]
  rfl

/-- Beyond the position space the index of references lacks an edge. -/
theorem not_exact_linkedUpTo {count : Nat} (hbeyond : u32Max + 1 < count)
    (hcount : count ≤ 256 ^ 32)
    {intern : AttributeIntern} (hintern : AttributeIntern.fromAttributes ["link"] = .ok intern) :
    ¬ Exact (linkedUpTo count) intern
      (fromCanonical (linkedUpTo count) (buildLiveBitvectorPub (linkedUpTo count)) intern) := by
  intro hexact
  have hlast : u32Max + 1 < (linkedUpTo count).length := by rwa [length_linkedUpTo hcount]
  obtain ⟨d, hd⟩ : ∃ d, (linkedUpTo count)[u32Max + 1]? = some d :=
    ⟨_, List.getElem?_eq_getElem hlast⟩
  have hrun := lastOfRun_linkedUpTo hcount (List.mem_of_getElem? hd)
  have hedge := (hexact.edge_iff d.entity ⟨0⟩ (numberedEntity 0)).mpr
    ⟨"link", resolve_link hintern, d, hrun⟩
  obtain ⟨d', i, hd', hlive, hentity, -⟩ := mem_edges.mp (mem_neighbors.mp hedge)
  have hmax : i ≤ u32Max := by
    rw [getElem?_buildLiveBitvectorPub, buildLiveRoaring, List.mem_toFinset] at hlive
    exact le_of_mem_livePositions hlive
  obtain ⟨hlt, rfl⟩ := List.getElem?_eq_some_iff.mp hd
  obtain ⟨hi, rfl⟩ := List.getElem?_eq_some_iff.mp hd'
  have hdistinct := List.pairwise_map.mp (nodup_entity_linkedUpTo hcount)
  exact List.pairwise_iff_getElem.mp hdistinct i (u32Max + 1) hi hlt (by omega) hentity

/-- An array that is longer than there are positions. -/
theorem adjacency_beyond :
    ∃ intern, AttributeIntern.fromAttributes ["link"] = .ok intern ∧
      (linkedUpTo (u32Max + 2)).Pairwise (· < ·) ∧
      ¬ Exact (linkedUpTo (u32Max + 2)) intern (fromCanonical (linkedUpTo (u32Max + 2))
        (buildLiveBitvectorPub (linkedUpTo (u32Max + 2))) intern) := by
  obtain ⟨intern, hintern⟩ := exists_fromAttributes_link
  exact ⟨intern, hintern, sorted_linkedUpTo _,
    not_exact_linkedUpTo (Nat.lt_succ_self _) (by decide) hintern⟩

end AdjacencyIndex

end Ferratomic
