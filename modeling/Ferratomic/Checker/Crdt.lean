import Ferratomic.Lib.Checker

/-!
# The checker's model of replicas that merge

Replicas hold sets of datoms. A replica writes a datom or sends a snapshot of its set to a peer, and
a snapshot in flight is merged into the set of its target, in any order. Next to its set the model
keeps what each replica has received. The checker explores the model at small bounds; the main
theorem, `replicas_converge`, says that the properties hold at every bound, and that from every
state that is explored the replicas can still converge.
-/

namespace Ferratomic.Checker

open Lib

section Model

variable {δ : Type} [DecidableEq δ]

/-- The state of the model. The list of what is received has an item for every replica, as the list
of sets has. -/
structure CrdtState (δ : Type) where
  nodes : List (Finset δ)
  inFlight : List (Nat × Nat × Finset δ)
  receivedWrites : List (Finset δ)

/-- The actions of the model. -/
inductive CrdtAction (δ : Type) where
  | write (node : Nat) (datom : δ)
  | initMerge (source target : Nat)
  | deliverMerge (index : Nat)

/-- The bounds of the model, the datoms that it writes and those that are in its domain. -/
structure CrdtModel (δ : Type) where
  nodeCount : Nat
  datoms : List δ
  isInDomain : δ → Bool
  maxInFlight : Nat

/-- The set of a replica. -/
def CrdtState.node (state : CrdtState δ) (index : Nat) : Finset δ :=
  state.nodes[index]?.getD ∅

/-- `merge_sets`: plain union. -/
def mergeSets (a b : Finset δ) : Finset δ := a ∪ b

/-- `is_converged`: all replicas hold the same set. -/
def isConverged (state : CrdtState δ) : Bool :=
  match state.nodes.head? with
  | some first => state.nodes.all fun node => decide (node = first)
  | none => true

namespace CrdtModel

variable (model : CrdtModel δ)

/-- `can_queue_snapshot`: the snapshot of a replica for a peer, if there is room for it. -/
def canQueueSnapshot (state : CrdtState δ) (source target : Nat) : Option (Finset δ) :=
  if state.nodes.length ≤ source ∨ state.nodes.length ≤ target ∨ source = target then none
  else if model.maxInFlight ≤ state.inFlight.length then none
  else state.nodes[source]?

/-- `init_states`: empty replicas. -/
def initStates : List (CrdtState δ) :=
  [⟨List.replicate model.nodeCount ∅, [], List.replicate model.nodeCount ∅⟩]

/-- What the checker tries at one replica: to write the datoms that it does not hold, and to send
snapshots to its peers. -/
def nodeActions (state : CrdtState δ) (node : Nat) : List (CrdtAction δ) :=
  (model.datoms.filter fun datom => datom ∉ state.node node).map (.write node) ++
    ((List.range model.nodeCount).filter fun peer =>
      (model.canQueueSnapshot state node peer).isSome).map (.initMerge node)

/-- `actions`: what the checker tries in a state. -/
def actions (state : CrdtState δ) : List (CrdtAction δ) :=
  (List.range model.nodeCount).flatMap (model.nodeActions state) ++
    (List.range state.inFlight.length).map .deliverMerge

/-- `next_state`: the state after an action, if the action is enabled. -/
def nextState (state : CrdtState δ) : CrdtAction δ → Option (CrdtState δ)
  | .write node datom =>
      if state.nodes.length ≤ node ∨ model.isInDomain datom = false then none
      else some { state with
        nodes := state.nodes.modify node (insert datom)
        receivedWrites := state.receivedWrites.modify node (insert datom) }
  | .initMerge source target =>
      (model.canQueueSnapshot state source target).map fun payload =>
        { state with inFlight := state.inFlight ++ [(source, target, payload)] }
  | .deliverMerge index =>
      match state.inFlight[index]? with
      | none => none
      | some (_, target, payload) =>
          if state.nodes.length ≤ target then none
          else some {
            nodes := state.nodes.modify target (mergeSets · payload)
            inFlight := state.inFlight.eraseIdx index
            receivedWrites := state.receivedWrites.modify target (· ∪ payload) }

/-- The replica sets or payloads hold datoms of the domain only. -/
def inDomain (sets : List (Finset δ)) : Prop :=
  ∀ set ∈ sets, ∀ datom ∈ set, model.isInDomain datom = true

instance (sets : List (Finset δ)) : Decidable (model.inDomain sets) :=
  inferInstanceAs (Decidable (∀ set ∈ sets, ∀ datom ∈ set, model.isInDomain datom = true))

/-- `within_boundary`: the states that the checker explores. -/
def withinBoundary (state : CrdtState δ) : Bool :=
  decide (state.inFlight.length ≤ model.maxInFlight) && decide (model.inDomain state.nodes) &&
    decide (model.inDomain (state.inFlight.map fun message => message.2.2))

/-- The model as the checker explores it. -/
def checked : Model (CrdtState δ) (CrdtAction δ) :=
  ⟨model.initStates, model.actions, model.nextState, model.withinBoundary⟩

/-- `inv_ferr_010_in_flight_payloads_stay_in_domain`. -/
def payloadsStayInDomain (state : CrdtState δ) : Bool :=
  decide (model.inDomain (state.inFlight.map fun message => message.2.2))

end CrdtModel

namespace CrdtState

/-- `inv_ferr_010_sec_convergence`: at quiescence two replicas that have received the same hold the
same. -/
def secConvergence (state : CrdtState δ) : Bool :=
  !state.inFlight.isEmpty || (List.range state.nodes.length).all fun i =>
    (List.range' (i + 1) (state.nodes.length - (i + 1))).all fun j =>
      !(decide (state.receivedWrites[i]? = state.receivedWrites[j]?) &&
        decide (state.nodes[i]? ≠ state.nodes[j]?))

/-- `inv_ferr_004_monotonic_growth`, which is also the property of
`inv_ferr_018_append_only_crdt_alias`: every replica holds what it has received. -/
def monotonicGrowth (state : CrdtState δ) : Bool :=
  (state.nodes.zip state.receivedWrites).all fun pair => decide (pair.2 ⊆ pair.1)

end CrdtState

namespace CrdtModel

variable {model : CrdtModel δ} {state next : CrdtState δ}

/-- The invariant of the model. What is kept as received is the set itself, and every message in
flight can be delivered. -/
structure Inv (model : CrdtModel δ) (state : CrdtState δ) : Prop where
  length : state.nodes.length = model.nodeCount
  received : state.receivedWrites = state.nodes
  nodes : model.inDomain state.nodes
  payloads : model.inDomain (state.inFlight.map fun message => message.2.2)
  targets : ∀ message ∈ state.inFlight, message.2.1 < model.nodeCount

omit [DecidableEq δ] in
/-- A snapshot is queued between two nodes, within the bound, with the source's datoms. -/
theorem canQueueSnapshot_eq_some {source target : Nat} {payload : Finset δ}
    (h : model.canQueueSnapshot state source target = some payload) :
    source < state.nodes.length ∧ target < state.nodes.length ∧ source ≠ target ∧
      state.inFlight.length < model.maxInFlight ∧ state.nodes[source]? = some payload := by
  unfold canQueueSnapshot at h
  split at h
  case isTrue => cases h
  case isFalse hpeers =>
      split at h
      case isTrue => cases h
      case isFalse hroom =>
          simp only [not_or, Nat.not_le] at hpeers
          exact ⟨hpeers.1, hpeers.2.1, hpeers.2.2, Nat.lt_of_not_le hroom, h⟩

/-- A merge of sets of the domain stays in the domain. -/
theorem inDomain_modify {sets : List (Finset δ)} (h : model.inDomain sets) {more : Finset δ}
    (hmore : ∀ datom ∈ more, model.isInDomain datom = true) (index : Nat) :
    model.inDomain (sets.modify index (· ∪ more)) := by
  intro set hset datom hdatom
  rcases mem_modify hset with hold | ⟨before, hbefore, rfl⟩
  · exact h set hold datom hdatom
  · rcases Finset.mem_union.mp hdatom with hin | hin
    · exact h before hbefore datom hin
    · exact hmore datom hin

/-- A write within the domain keeps the invariant. -/
theorem Inv.write (h : model.Inv state) {datom : δ} (hdatom : model.isInDomain datom = true)
    (node : Nat) :
    model.Inv { state with
      nodes := state.nodes.modify node (insert datom)
      receivedWrites := state.receivedWrites.modify node (insert datom) } := by
  have hinsert : (insert datom : Finset δ → Finset δ) = (· ∪ {datom}) := by
    funext set
    rw [Finset.union_comm, Finset.insert_eq]
  refine ⟨(List.length_modify ..).trans h.length, by rw [h.received], ?_, h.payloads, h.targets⟩
  rw [hinsert]
  refine inDomain_modify h.nodes (fun other hother => ?_) node
  rw [Finset.mem_singleton.mp hother]
  exact hdatom

omit [DecidableEq δ] in
/-- Queueing a snapshot keeps the invariant. -/
theorem Inv.queue (h : model.Inv state) {source target : Nat} {payload : Finset δ}
    (htarget : target < model.nodeCount) (hpayload : state.nodes[source]? = some payload) :
    model.Inv { state with inFlight := state.inFlight ++ [(source, target, payload)] } := by
  refine ⟨h.length, h.received, h.nodes, ?_, fun message hmessage => ?_⟩
  · intro set hset
    rw [List.map_append] at hset
    rcases List.mem_append.mp hset with hold | hnew
    · exact h.payloads set hold
    · rw [List.mem_singleton.mp hnew]
      exact h.nodes payload (List.mem_of_getElem? hpayload)
  · rcases List.mem_append.mp hmessage with hold | hnew
    · exact h.targets message hold
    · rw [List.mem_singleton.mp hnew]
      exact htarget

/-- A delivery keeps the invariant. -/
theorem Inv.deliver (h : model.Inv state) {index source target : Nat} {payload : Finset δ}
    (hget : state.inFlight[index]? = some (source, target, payload)) :
    model.Inv {
      nodes := state.nodes.modify target (mergeSets · payload)
      inFlight := state.inFlight.eraseIdx index
      receivedWrites := state.receivedWrites.modify target (· ∪ payload) } := by
  have hmem := List.mem_of_getElem? hget
  refine ⟨(List.length_modify ..).trans h.length, by rw [h.received]; rfl, ?_, ?_, ?_⟩
  · exact inDomain_modify h.nodes
      (h.payloads payload (List.mem_map.mpr ⟨_, hmem, rfl⟩)) target
  · intro set hset
    obtain ⟨message, hmessage, rfl⟩ := List.mem_map.mp hset
    exact h.payloads _ (List.mem_map_of_mem (List.mem_of_mem_eraseIdx hmessage))
  · exact fun message hmessage => h.targets message (List.mem_of_mem_eraseIdx hmessage)

/-- Every action keeps the invariant. -/
theorem Inv.nextState (h : model.Inv state) {action : CrdtAction δ}
    (hnext : model.nextState state action = some next) : model.Inv next := by
  cases action with
  | write node datom =>
      simp only [CrdtModel.nextState] at hnext
      split at hnext
      case isTrue => cases hnext
      case isFalse hguard =>
          cases hnext
          exact h.write (Bool.eq_true_of_not_eq_false fun hout => hguard (.inr hout)) node
  | initMerge source target =>
      obtain ⟨payload, hpayload, rfl⟩ := Option.map_eq_some_iff.mp hnext
      obtain ⟨-, htarget, -, -, hget⟩ := canQueueSnapshot_eq_some hpayload
      exact h.queue (h.length ▸ htarget) hget
  | deliverMerge index =>
      simp only [CrdtModel.nextState] at hnext
      split at hnext
      case h_1 => cases hnext
      case h_2 hget =>
          split at hnext
          case isTrue => cases hnext
          case isFalse =>
              cases hnext
              exact h.deliver hget

omit [DecidableEq δ] in
/-- The invariant holds of the initial states. -/
theorem inv_init (model : CrdtModel δ) : ∀ state ∈ model.initStates, model.Inv state := by
  intro state hstate
  rw [List.mem_singleton.mp hstate]
  refine ⟨List.length_replicate, rfl, fun set hset => ?_, fun set hset => ?_, fun _ h => ?_⟩
  · rw [List.eq_of_mem_replicate hset]
    exact fun datom hdatom => absurd hdatom (Finset.notMem_empty datom)
  · exact absurd hset List.not_mem_nil
  · exact absurd h List.not_mem_nil

/-- The invariant holds in every state the checker visits. -/
theorem invariant_checked (model : CrdtModel δ) : model.checked.Invariant model.Inv :=
  ⟨inv_init model, fun _ _ _ h _ hnext => h.nextState hnext⟩

/-- Under the invariant nodes that received the same datoms are equal. -/
theorem Inv.secConvergence (h : model.Inv state) : state.secConvergence = true := by
  rw [CrdtState.secConvergence, Bool.or_eq_true]
  refine .inr (List.all_eq_true.mpr fun i _ => List.all_eq_true.mpr fun j _ => ?_)
  rw [h.received]
  by_cases hsame : state.nodes[i]? = state.nodes[j]?
  · simp [hsame]
  · simp [hsame]

/-- Under the invariant every node has what it received. -/
theorem Inv.monotonicGrowth (h : model.Inv state) : state.monotonicGrowth = true := by
  rw [CrdtState.monotonicGrowth, h.received, List.zip_eq_zipWith, List.zipWith_self]
  refine List.all_eq_true.mpr fun pair hpair => decide_eq_true ?_
  obtain ⟨set, -, rfl⟩ := List.mem_map.mp hpair
  exact Finset.Subset.refl set

omit [DecidableEq δ] in
/-- A state under the invariant with room in flight is within the boundary. -/
theorem Inv.withinBoundary (h : model.Inv state)
    (hroom : state.inFlight.length ≤ model.maxInFlight) : model.withinBoundary state = true := by
  rw [CrdtModel.withinBoundary, Bool.and_eq_true, Bool.and_eq_true]
  exact ⟨⟨decide_eq_true hroom, decide_eq_true h.nodes⟩, decide_eq_true h.payloads⟩

/-- A message in flight is delivered. -/
theorem Inv.steps_deliver (h : model.Inv state) {index source target : Nat} {payload : Finset δ}
    (hget : state.inFlight[index]? = some (source, target, payload))
    (hroom : state.inFlight.length ≤ model.maxInFlight) :
    model.checked.Steps state {
      nodes := state.nodes.modify target (mergeSets · payload)
      inFlight := state.inFlight.eraseIdx index
      receivedWrites := state.receivedWrites.modify target (· ∪ payload) } := by
  have hindex : index < state.inFlight.length := (List.getElem?_eq_some_iff.mp hget).1
  have htarget : target < state.nodes.length :=
    h.length ▸ h.targets _ (List.mem_of_getElem? hget)
  have haction : CrdtAction.deliverMerge index ∈ model.checked.actions state :=
    List.mem_append_right _ (List.mem_map_of_mem (List.mem_range.mpr hindex))
  refine .single haction ?_ ((h.deliver hget).withinBoundary ?_)
  · show model.nextState state (.deliverMerge index) = some _
    rw [CrdtModel.nextState, hget]
    simp only [if_neg (Nat.not_le_of_lt htarget)]
  · exact (List.length_eraseIdx_le ..).trans hroom

/-- A snapshot is sent. -/
theorem Inv.steps_queue (h : model.Inv state) {source target : Nat}
    (hsource : source < model.nodeCount) (htarget : target < model.nodeCount)
    (hne : source ≠ target) (hroom : state.inFlight.length < model.maxInFlight) :
    model.checked.Steps state { state with
      inFlight := state.inFlight ++ [(source, target, state.node source)] } := by
  have hget : state.nodes[source]? = some (state.node source) := by
    rw [CrdtState.node, List.getElem?_eq_getElem (h.length ▸ hsource)]
    rfl
  have hqueue : model.canQueueSnapshot state source target = some (state.node source) := by
    rw [canQueueSnapshot, if_neg (by rw [h.length]; omega), if_neg (by omega), hget]
  have haction : CrdtAction.initMerge source target ∈ model.checked.actions state := by
    refine List.mem_append_left _ (List.mem_flatMap.mpr ⟨source, List.mem_range.mpr hsource, ?_⟩)
    refine List.mem_append_right _ (List.mem_map_of_mem (List.mem_filter.mpr ?_))
    exact ⟨List.mem_range.mpr htarget, by rw [hqueue]; rfl⟩
  refine .single haction ?_ ((h.queue htarget hget).withinBoundary ?_)
  · show model.nextState state (.initMerge source target) = some _
    rw [CrdtModel.nextState, hqueue]
    rfl
  · rw [List.length_append]
    exact hroom

/-- A datom of the domain is written, or held already. -/
theorem Inv.steps_write (h : model.Inv state) {node : Nat} (hnode : node < model.nodeCount)
    {datom : δ} (hdatom : datom ∈ model.datoms) (hdomain : model.isInDomain datom = true)
    (hroom : state.inFlight.length ≤ model.maxInFlight) :
    model.checked.Steps state { state with
      nodes := state.nodes.modify node (insert datom)
      receivedWrites := state.receivedWrites.modify node (insert datom) } := by
  have hlength : node < state.nodes.length := h.length ▸ hnode
  by_cases hheld : datom ∈ state.node node
  · have hsame : state.nodes.modify node (insert datom) = state.nodes := by
      refine List.ext_getElem? fun index => ?_
      rw [List.getElem?_modify]
      split
      case isTrue heq =>
          subst heq
          rw [CrdtState.node, List.getElem?_eq_getElem hlength] at hheld
          rw [List.getElem?_eq_getElem hlength]
          exact congrArg some (Finset.insert_eq_self.mpr hheld)
      case isFalse => exact Option.map_id'
    rw [h.received, hsame]
    nth_rewrite 2 [← h.received]
    exact .refl state
  · have haction : CrdtAction.write node datom ∈ model.checked.actions state := by
      refine List.mem_append_left _ (List.mem_flatMap.mpr ⟨node, List.mem_range.mpr hnode, ?_⟩)
      exact List.mem_append_left _ (List.mem_map_of_mem (List.mem_filter.mpr
        ⟨hdatom, decide_eq_true hheld⟩))
    refine .single haction ?_ ((h.write hdomain node).withinBoundary hroom)
    show model.nextState state (.write node datom) = some _
    rw [CrdtModel.nextState, if_neg]
    intro hguard
    rcases hguard with hout | hout
    · omega
    · rw [hdomain] at hout
      cases hout

/-- Several datoms of the domain are written one after another. -/
theorem Inv.steps_writes (h : model.Inv state) {node : Nat} (hnode : node < model.nodeCount)
    {datoms : List δ} (hdatoms : ∀ datom ∈ datoms, datom ∈ model.datoms)
    (hdomain : ∀ datom ∈ datoms, model.isInDomain datom = true)
    (hroom : state.inFlight.length ≤ model.maxInFlight) :
    model.checked.Steps state { state with
      nodes := state.nodes.modify node (datoms.toFinset ∪ ·)
      receivedWrites := state.receivedWrites.modify node (datoms.toFinset ∪ ·) } := by
  induction datoms generalizing state with
  | nil =>
      have hempty : (fun set => ([] : List δ).toFinset ∪ set) = id := by
        funext set
        rw [List.toFinset_nil, Finset.empty_union, id]
      rw [hempty, List.modify_id, List.modify_id]
      exact .refl state
  | cons datom rest ih =>
      obtain ⟨hdatom, hrest⟩ := List.forall_mem_cons.mp hdatoms
      obtain ⟨hin, hrestIn⟩ := List.forall_mem_cons.mp hdomain
      have hfirst := h.steps_write hnode hdatom hin hroom
      have hlater := ih (h.write hin node) hrest hrestIn hroom
      have hboth : (fun set => rest.toFinset ∪ set) ∘ insert datom =
          fun set => (datom :: rest).toFinset ∪ set := by
        funext set
        rw [Function.comp_apply, List.toFinset_cons, Finset.union_insert, Finset.insert_union]
      simp only [List.modify_modify_eq, hboth] at hlater
      exact hfirst.trans hlater

section Convergence

/-- Nothing is in flight. -/
structure Quiet (model : CrdtModel δ) (state : CrdtState δ) : Prop where
  inv : model.Inv state
  inFlight : state.inFlight = []

/-- All messages in flight are delivered. -/
theorem Inv.steps_drain (h : model.Inv state)
    (hroom : state.inFlight.length ≤ model.maxInFlight) :
    ∃ next, model.checked.Steps state next ∧ model.Quiet next := by
  induction hcount : state.inFlight.length generalizing state with
  | zero => exact ⟨state, .refl state, h, List.length_eq_zero_iff.mp hcount⟩
  | succ count ih =>
      have hget : state.inFlight[0]? = some (state.inFlight.get ⟨0, by omega⟩) :=
        List.getElem?_eq_getElem _
      have hdelivered := h.deliver hget
      have hlength : (state.inFlight.eraseIdx 0).length = count := by
        rw [List.length_eraseIdx_of_lt (by omega)]
        omega
      obtain ⟨next, hsteps, hquiet⟩ := ih hdelivered (by simp only [hlength]; omega) hlength
      exact ⟨next, (h.steps_deliver hget hroom).trans hsteps, hquiet⟩

/-- A delivery joins its payload to the target and leaves the other nodes. -/
theorem node_modify (state : CrdtState δ) {target : Nat} (htarget : target < state.nodes.length)
    (payload : Finset δ) (inFlight : List (Nat × Nat × Finset δ)) (received : List (Finset δ))
    (index : Nat) :
    CrdtState.node ⟨state.nodes.modify target (mergeSets · payload), inFlight, received⟩ index =
      if index = target then state.node target ∪ payload else state.node index := by
  rw [CrdtState.node, List.getElem?_modify]
  by_cases hindex : index = target
  · subst hindex
    rw [if_pos rfl, CrdtState.node, List.getElem?_eq_getElem htarget]
    simp only [if_pos, Option.map_eq_map, Option.map_some, Option.getD_some, mergeSets]
  · simp only [if_neg hindex, if_neg (Ne.symm hindex), Option.map_eq_map, Option.map_id']
    rfl

/-- One replica sends its set to another, and it is delivered. -/
theorem Quiet.steps_exchange (h : model.Quiet state) (hroom : 0 < model.maxInFlight)
    {source target : Nat} (hsource : source < model.nodeCount) (htarget : target < model.nodeCount)
    (hne : source ≠ target) :
    ∃ next, model.checked.Steps state next ∧ model.Quiet next ∧
      ∀ index, next.node index =
        if index = target then state.node target ∪ state.node source else state.node index := by
  have hqueue := h.inv.steps_queue hsource htarget hne (by rw [h.inFlight]; exact hroom)
  have hget : state.nodes[source]? = some (state.node source) := by
    rw [CrdtState.node, List.getElem?_eq_getElem (h.inv.length ▸ hsource)]
    rfl
  have hqueued := h.inv.queue htarget hget
  have hfirst : (state.inFlight ++ [(source, target, state.node source)])[0]? =
      some (source, target, state.node source) := by
    rw [h.inFlight]
    rfl
  have hdeliver := hqueued.steps_deliver hfirst (by rw [h.inFlight]; exact hroom)
  refine ⟨_, hqueue.trans hdeliver, ⟨hqueued.deliver hfirst, ?_⟩, ?_⟩
  · simp only [h.inFlight, List.nil_append, List.eraseIdx_cons_zero]
  · exact node_modify _ (h.inv.length ▸ htarget) _ _ _

/-- Replicas send their sets to the first one. -/
theorem Quiet.steps_gather (h : model.Quiet state) (hroom : 0 < model.maxInFlight)
    {peers : List Nat} (hpeers : ∀ peer ∈ peers, peer ≠ 0 ∧ peer < model.nodeCount) :
    ∃ next, model.checked.Steps state next ∧ model.Quiet next ∧
      (∀ index ≠ 0, next.node index = state.node index) ∧ state.node 0 ⊆ next.node 0 ∧
      ∀ peer ∈ peers, state.node peer ⊆ next.node 0 := by
  induction peers generalizing state with
  | nil =>
      exact ⟨state, .refl state, h, fun _ _ => rfl, Finset.Subset.refl _,
        fun _ hpeer => absurd hpeer List.not_mem_nil⟩
  | cons peer rest ih =>
      obtain ⟨⟨hne, hpeer⟩, hrest⟩ := List.forall_mem_cons.mp hpeers
      obtain ⟨middle, hfirst, hmiddle, hnode⟩ :=
        h.steps_exchange hroom hpeer (Nat.zero_lt_of_lt hpeer) hne
      obtain ⟨next, hsteps, hquiet, hother, hhub, hall⟩ := ih hmiddle hrest
      rw [hnode 0, if_pos rfl] at hhub
      refine ⟨next, hfirst.trans hsteps, hquiet, fun index hindex => ?_,
        Finset.subset_union_left.trans hhub, fun other hmem => ?_⟩
      · rw [hother index hindex, hnode, if_neg hindex]
      · rcases List.mem_cons.mp hmem with heq | hlater
        · rw [heq]
          exact Finset.subset_union_right.trans hhub
        · have hsame := hnode other
          rw [if_neg (hrest other hlater).1] at hsame
          exact hsame ▸ hall other hlater

/-- The first replica sends its set to others, whose sets it has. -/
theorem Quiet.steps_scatter (h : model.Quiet state) (hroom : 0 < model.maxInFlight)
    {peers : List Nat} (hpeers : ∀ peer ∈ peers, peer ≠ 0 ∧ peer < model.nodeCount)
    (hhub : ∀ index < model.nodeCount, state.node index ⊆ state.node 0) :
    ∃ next, model.checked.Steps state next ∧ model.Quiet next ∧
      next.node 0 = state.node 0 ∧ (∀ peer ∈ peers, next.node peer = state.node 0) ∧
      ∀ index, state.node index = state.node 0 → next.node index = state.node 0 := by
  induction peers generalizing state with
  | nil =>
      exact ⟨state, .refl state, h, rfl, fun _ hpeer => absurd hpeer List.not_mem_nil,
        fun _ hindex => hindex⟩
  | cons peer rest ih =>
      obtain ⟨⟨hne, hpeer⟩, hrest⟩ := List.forall_mem_cons.mp hpeers
      obtain ⟨middle, hfirst, hmiddle, hnode⟩ :=
        h.steps_exchange hroom (Nat.zero_lt_of_lt hpeer) hpeer (Ne.symm hne)
      have hzero : middle.node 0 = state.node 0 := by
        rw [hnode, if_neg (Ne.symm hne)]
      have hsent : middle.node peer = state.node 0 := by
        rw [hnode, if_pos rfl]
        exact Finset.union_eq_right.mpr (hhub peer hpeer)
      obtain ⟨next, hsteps, hquiet, hkept, hall, hstays⟩ := ih hmiddle hrest (by
        intro index hindex
        rw [hzero, hnode]
        split
        · exact Finset.union_subset (hhub peer hpeer) (Finset.Subset.refl _)
        · exact hhub index hindex)
      rw [hzero] at hkept hall hstays
      refine ⟨next, hfirst.trans hsteps, hquiet, hkept, fun other hmem => ?_,
        fun index hindex => hstays index ?_⟩
      · rcases List.mem_cons.mp hmem with heq | hlater
        · rw [heq]
          exact hstays peer hsent
        · exact hall other hlater
      · rw [hnode]
        split
        case isTrue heq => rw [← heq, hindex, Finset.union_self]
        case isFalse => exact hindex

/-- From every state of the model the replicas can converge, if one message fits in flight. -/
theorem Inv.steps_converge (h : model.Inv state)
    (hflight : state.inFlight.length ≤ model.maxInFlight) (hroom : 0 < model.maxInFlight) :
    ∃ next, model.checked.Steps state next ∧ next.inFlight = [] ∧ isConverged next = true := by
  obtain ⟨drained, hdrain, hquiet⟩ := h.steps_drain hflight
  have hpeers : ∀ peer ∈ List.range' 1 (model.nodeCount - 1), peer ≠ 0 ∧
      peer < model.nodeCount := by
    intro peer hpeer
    rw [List.mem_range'_1] at hpeer
    omega
  have hpeer {index : Nat} (hindex : index < model.nodeCount) (hne : index ≠ 0) :
      index ∈ List.range' 1 (model.nodeCount - 1) := by
    rw [List.mem_range'_1]
    omega
  obtain ⟨gathered, hgather, hgathered, hkept, hhub, hall⟩ := hquiet.steps_gather hroom hpeers
  obtain ⟨last, hscatter, hlast, hzero, hothers, -⟩ := hgathered.steps_scatter hroom hpeers (by
    intro index hindex
    by_cases hne : index = 0
    · rw [hne]
    · rw [hkept index hne]
      exact hall index (hpeer hindex hne))
  refine ⟨last, hdrain.trans (hgather.trans hscatter), hlast.inFlight, ?_⟩
  have hsame : ∀ index < model.nodeCount, last.node index = gathered.node 0 := by
    intro index hindex
    by_cases hne : index = 0
    · rw [hne, hzero]
    · exact hothers index (hpeer hindex hne)
  have hequal : ∀ set ∈ last.nodes, set = gathered.node 0 := by
    intro set hset
    obtain ⟨index, hindex, hget⟩ := List.mem_iff_getElem.mp hset
    have hnode := hsame index (hlast.inv.length ▸ hindex)
    rw [CrdtState.node, List.getElem?_eq_getElem hindex, hget] at hnode
    exact hnode
  rw [isConverged]
  split
  case h_1 first hfirst =>
      refine List.all_eq_true.mpr fun set hset => decide_eq_true ?_
      rw [hequal set hset, hequal first (List.mem_of_mem_head? hfirst)]
  case h_2 => rfl

end Convergence

omit [DecidableEq δ] in
/-- Under the invariant every payload in flight is within the domain. -/
theorem Inv.payloadsStayInDomain (h : model.Inv state) : model.payloadsStayInDomain state = true :=
  decide_eq_true h.payloads

/-- What the checker tries is enabled, where the datoms that it writes are in the domain: every
message in flight can be delivered. -/
theorem Inv.isSome_nextState (h : model.Inv state)
    (hdatoms : ∀ datom ∈ model.datoms, model.isInDomain datom = true) {action : CrdtAction δ}
    (haction : action ∈ model.actions state) : (model.nextState state action).isSome = true := by
  rcases List.mem_append.mp haction with hnode | hdeliver
  · obtain ⟨node, hrange, hnode⟩ := List.mem_flatMap.mp hnode
    have hlength : node < state.nodes.length := h.length ▸ List.mem_range.mp hrange
    rcases List.mem_append.mp hnode with hwrite | hinit
    · obtain ⟨datom, hdatom, rfl⟩ := List.mem_map.mp hwrite
      have hdomain := hdatoms datom (List.mem_filter.mp hdatom).1
      rw [CrdtModel.nextState, if_neg]
      · rfl
      · intro hguard
        rcases hguard with hout | hout
        · exact Nat.not_le_of_lt hlength hout
        · rw [hdomain] at hout
          cases hout
    · obtain ⟨peer, hpeer, rfl⟩ := List.mem_map.mp hinit
      rw [CrdtModel.nextState, Option.isSome_map]
      exact (List.mem_filter.mp hpeer).2
  · obtain ⟨index, hindex, rfl⟩ := List.mem_map.mp hdeliver
    have hget := List.getElem?_eq_getElem (List.mem_range.mp hindex)
    have htarget := h.targets _ (List.mem_of_getElem? hget)
    rw [CrdtModel.nextState, hget]
    simp only [if_neg (Nat.not_le_of_lt (h.length ▸ htarget)), Option.isSome_some]

end CrdtModel

end Model

/-- A datom of the finite domain of the checker. -/
structure SeedDatom where
  e : Nat
  a : Nat
  v : Nat
  tx : Nat
  op : Bool
  deriving DecidableEq

/-- `from_seed`: the lowest bit is the operation, the next the attribute, the others the entity. -/
def SeedDatom.fromSeed (seed : Nat) : SeedDatom :=
  ⟨seed >>> 2, (seed >>> 1) &&& 1, 0, 0, decide (seed &&& 1 = 0)⟩

namespace CrdtModel

/-- `CrdtModel::new`: the model that writes the datoms of the seeds below a bound. -/
def new (nodeCount maxDatoms maxInFlight : Nat) : CrdtModel SeedDatom where
  nodeCount := nodeCount
  datoms := (List.range maxDatoms).map SeedDatom.fromSeed
  isInDomain datom := decide (datom.e < maxDatoms / 4 + 1) && decide (datom.a ≤ 1)
  maxInFlight := maxInFlight

/-- Every datom of the model is within its domain. -/
theorem isInDomain_new (nodeCount maxDatoms maxInFlight : Nat) :
    ∀ datom ∈ (new nodeCount maxDatoms maxInFlight).datoms,
      (new nodeCount maxDatoms maxInFlight).isInDomain datom = true := by
  intro datom hdatom
  obtain ⟨seed, hseed, rfl⟩ := List.mem_map.mp hdatom
  have hentity : seed >>> 2 < maxDatoms / 4 + 1 := by
    rw [Nat.shiftRight_eq_div_pow]
    have hle : seed / 4 ≤ maxDatoms / 4 := Nat.div_le_div_right (List.mem_range.mp hseed).le
    omega
  have hattr : (seed >>> 1) &&& 1 ≤ 1 := Nat.and_le_right
  rw [new, Bool.and_eq_true]
  exact ⟨decide_eq_true hentity, decide_eq_true hattr⟩

/-- At every bound the properties that the checker asserts hold, all that it tries is enabled, and
the replicas can converge from every state that is explored. -/
theorem replicas_converge (nodeCount maxDatoms maxInFlight : Nat) :
    ((new nodeCount maxDatoms maxInFlight).checked.Always fun state =>
      (new nodeCount maxDatoms maxInFlight).payloadsStayInDomain state = true ∧
      state.secConvergence = true ∧ state.monotonicGrowth = true) ∧
    ((new nodeCount maxDatoms maxInFlight).checked.Always fun state =>
      ∀ action ∈ (new nodeCount maxDatoms maxInFlight).actions state,
        ((new nodeCount maxDatoms maxInFlight).nextState state action).isSome = true) ∧
    (0 < maxInFlight → (new nodeCount maxDatoms maxInFlight).checked.Always fun state =>
      ∃ next, (new nodeCount maxDatoms maxInFlight).checked.Steps state next ∧
        next.inFlight = [] ∧ isConverged next = true) := by
  have hinv := (invariant_checked (new nodeCount maxDatoms maxInFlight)).always
  refine ⟨hinv.imp fun state h =>
      ⟨h.payloadsStayInDomain, h.secConvergence, h.monotonicGrowth⟩,
    hinv.imp fun state h action haction =>
      h.isSome_nextState (isInDomain_new nodeCount maxDatoms maxInFlight) haction,
    fun hroom state hstate => ?_⟩
  have hboundary : (new nodeCount maxDatoms maxInFlight).withinBoundary state = true := by
    cases hstate with
    | init _ hboundary => exact hboundary
    | step _ _ _ hboundary => exact hboundary
  rw [withinBoundary, Bool.and_eq_true, Bool.and_eq_true, decide_eq_true_eq] at hboundary
  exact (hinv state hstate).steps_converge hboundary.1.1 hroom

/-- The default bounds. -/
theorem replicas_converge_default :
    (new 3 3 6).checked.Always fun state => ∃ next, (new 3 3 6).checked.Steps state next ∧
      next.inFlight = [] ∧ isConverged next = true :=
  (replicas_converge 3 3 6).2.2 (by decide)

end CrdtModel

end Ferratomic.Checker
