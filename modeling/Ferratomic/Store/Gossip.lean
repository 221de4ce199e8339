import Ferratomic.Checker.Crdt
import Ferratomic.Lib.Gossip
import Ferratomic.Store.Convergence

/-!
# Replicas that merge

Replicas write to their stores, send snapshots to each other and merge what they receive with
`from_merge`, over a network that reorders, repeats and loses snapshots.

`replicas_agree` says that a replica holds the union of the datom sets that it has received, so that
replicas that have received the same hold the same; `merges_agree` says that between local writes
this is true of everything that a store shows. `replicas_refine` connects the replicas to the model
of the checker.
-/

namespace Ferratomic

open Lib

section Replicas

variable [Blake3]

/-- A replica: a store that the operations of the engine produce. -/
abbrev Replica : Type :=
  {store : Store // Store.Reachable store}

/-- A write to the store of a replica. -/
inductive LocalWrite where
  | transact (order : IterOrder) (transaction : Transaction) (ctx : TransactContext)
  | batchSpliceTransact (orders : Nat → IterOrder) (batches : List (List Datom × TxId))
  | insert (d : Datom)
  | replayEntry (order : IterOrder) (epoch : UInt64) (datoms : List Datom)

namespace LocalWrite

/-- The store after a write, also after one that fails. -/
def apply (store : Store) : LocalWrite → Store
  | transact order transaction ctx => (Store.transact order store transaction ctx).2
  | batchSpliceTransact orders batches => (Store.batchSpliceTransact orders store batches).2
  | insert d => store.insert d
  | replayEntry order epoch datoms => (Store.replayEntry order store epoch datoms).2

/-- The datoms that a write adds to a store. -/
def written (store : Store) : LocalWrite → List Datom
  | transact order transaction ctx =>
      match (Store.transact order store transaction ctx).1 with
      | .error _ => []
      | .ok receipt => receipt.datoms
  | batchSpliceTransact orders batches =>
      match (Store.batchSpliceTransact orders store batches).1 with
      | .error _ => []
      | .ok receipts => receipts.flatMap TxReceipt.datoms
  | insert d => [d]
  | replayEntry _ _ datoms => datoms

/-- A local write leads from a reachable store to a reachable one. -/
theorem reachable_apply (write : LocalWrite) {store : Store} (h : Store.Reachable store) :
    Store.Reachable (write.apply store) := by
  cases write with
  | transact order transaction ctx => exact .transact order transaction ctx h
  | batchSpliceTransact orders batches => exact .batchSpliceTransact orders batches h
  | insert d => exact .insert d h
  | replayEntry order epoch datoms => exact .replayEntry order epoch datoms h

end LocalWrite

namespace Store

/-- Stores of the same body have the same datoms. -/
theorem SameBody.datomSet_eq {store other : Store} (h : store.SameBody other) :
    other.datomSet = store.datomSet := by
  rw [h]
  rfl

/-- A transaction that fails adds no datom. -/
theorem datomSet_transact_error {order : IterOrder} {store : Store} {transaction : Transaction}
    {ctx : TransactContext} {e : FerraError}
    (h : (transact order store transaction ctx).1 = .error e) :
    (transact order store transaction ctx).2.datomSet = store.datomSet := by
  unfold transact at h ⊢
  split
  case isTrue => rfl
  case isFalse hne =>
      rw [if_neg hne] at h
      split
      case h_1 => rfl
      case h_2 epoch hepoch =>
          rw [hepoch] at h
          simp only at h ⊢
          split
          case h_1 => rfl
          case h_2 hevolve =>
              rw [hevolve] at h
              cases h

/-- A batch that fails adds no datom. -/
theorem datomSet_batchSpliceTransact_error {orders : Nat → IterOrder} {store : Store}
    {batches : List (List Datom × TxId)} {e : FerraError}
    (h : (batchSpliceTransact orders store batches).1 = .error e) :
    (batchSpliceTransact orders store batches).2.datomSet = store.datomSet := by
  have hbody := sameBody_stampBatches orders 0 store batches
  unfold batchSpliceTransact at h ⊢
  split
  case isTrue => rfl
  case isFalse hne =>
      rw [if_neg hne] at h
      split
      case h_1 error other hstamp =>
          rw [hstamp] at hbody
          exact hbody.datomSet_eq
      case h_2 receipts other hstamp =>
          rw [hstamp] at h
          cases h

/-- What a write adds, and nothing else. -/
theorem datomSet_apply (store : Store) (write : LocalWrite) :
    (write.apply store).datomSet = (write.written store).toFinset ∪ store.datomSet := by
  ext d
  rw [Finset.mem_union, List.mem_toFinset]
  cases write with
  | transact order transaction ctx =>
      rw [LocalWrite.apply, LocalWrite.written]
      cases hresult : (transact order store transaction ctx).1 with
      | error e =>
          rw [datomSet_transact_error hresult]
          simp
      | ok receipt =>
          have hmem := (transact_ok hresult).2.mem_datomSet (d := d)
          exact hmem.trans (by simp [or_comm, datomSet, obs])
  | batchSpliceTransact orders batches =>
      rw [LocalWrite.apply, LocalWrite.written]
      cases hresult : (batchSpliceTransact orders store batches).1 with
      | error e =>
          rw [datomSet_batchSpliceTransact_error hresult]
          simp
      | ok receipts =>
          have hmem := (batchSpliceTransact_ok hresult).2.mem_datomSet (d := d)
          exact hmem.trans (by simp [or_comm, datomSet, obs])
  | insert inserted =>
      have hset := congrArg Observation.datomSet (obs_insert store inserted)
      show d ∈ (store.insert inserted).obs.datomSet ↔ _
      rw [hset]
      simp [LocalWrite.written, Observation.addDatom, datomSet, obs]
  | replayEntry order epoch datoms =>
      have hset := congrArg Observation.datomSet (obs_replayEntry order store epoch datoms)
      show d ∈ (replayEntry order store epoch datoms).2.obs.datomSet ↔ _
      rw [hset, Observation.commit, Observation.datomSet_addDatoms, Finset.mem_union,
        List.mem_toFinset]
      exact or_comm

end Store

namespace Replica

variable {ι : Type} [DecidableEq ι]

/-- Replicas write locally and merge the snapshots that they receive. -/
def rules : Replication LocalWrite Replica where
  write write replica := ⟨write.apply replica.1, write.reachable_apply replica.2⟩
  merge replica payload :=
    ⟨Store.fromMerge replica.1 payload.1, .fromMerge replica.2 payload.2⟩

/-- The datom set of a replica. -/
def datomSet (replica : Replica) : Finset Datom := replica.1.datomSet

/-- What a local write adds to what a replica has received. -/
def element (write : LocalWrite) (replica : Replica) : Finset Datom :=
  (write.written replica.1).toFinset

/-- A write joins its datoms to those of the replica. -/
theorem datomSet_write (write : LocalWrite) (replica : Replica) :
    (rules.write write replica).datomSet = element write replica ⊔ replica.datomSet :=
  Store.datomSet_apply replica.1 write

/-- A merge joins the datoms of both sides. -/
theorem datomSet_merge (replica payload : Replica) :
    (rules.merge replica payload).datomSet = replica.datomSet ⊔ payload.datomSet :=
  congrArg Observation.datomSet (Store.obs_fromMerge replica.1 payload.1)

/-- The replicas after a run from the given ones. -/
def run (nodes : ι → Replica) (actions : List (GossipAction ι LocalWrite)) : Gossip ι Replica :=
  (Gossip.start nodes).run rules actions

/-- The replicas with what they have received: their own datoms at first, the datoms of their
writes, and all that the senders of the snapshots they merged had received. -/
def recordedRun (nodes : ι → Replica) (actions : List (GossipAction ι LocalWrite)) :
    Gossip ι (Replica × Set (Finset Datom)) :=
  (Gossip.start fun node => (nodes node, {(nodes node).datomSet})).run
    (rules.recording element) actions

/-- The datom sets that a replica has received in a run. -/
def received (nodes : ι → Replica) (actions : List (GossipAction ι LocalWrite)) (node : ι) :
    Set (Finset Datom) :=
  ((recordedRun nodes actions).nodes node).2

/-- The recorded run is the run, without the record. -/
theorem erase_recordedRun (nodes : ι → Replica) (actions : List (GossipAction ι LocalWrite)) :
    (recordedRun nodes actions).erase = run nodes actions :=
  Gossip.erase_run _ actions

/-- A replica holds the union of what it has received. -/
theorem isLUB_datomSet (nodes : ι → Replica) (actions : List (GossipAction ι LocalWrite))
    (node : ι) :
    IsLUB (received nodes actions node) ((run nodes actions).nodes node).datomSet := by
  have hstart : (Gossip.start fun node => (nodes node, {(nodes node).datomSet})).All
      fun a : Replica × Set (Finset Datom) => IsLUB a.2 a.1.datomSet :=
    Gossip.all_start fun node => isLUB_singleton
  have hall := Gossip.isLUB_received datomSet_write datomSet_merge hstart actions
  rw [← erase_recordedRun]
  exact hall.node node

/-- In any runs of any replicas: a replica holds the union of what it has received, two that have
received the same hold the same datoms, and no datom is lost. -/
theorem replicas_agree (nodes nodes' : ι → Replica)
    (actions actions' : List (GossipAction ι LocalWrite)) :
    (∀ node, IsLUB (received nodes actions node) ((run nodes actions).nodes node).datomSet) ∧
    (∀ node node', received nodes actions node = received nodes' actions' node' →
      ((run nodes actions).nodes node).datomSet =
        ((run nodes' actions').nodes node').datomSet) ∧
    ∀ more node, ((run nodes actions).nodes node).datomSet ⊆
      ((run nodes (actions ++ more)).nodes node).datomSet := by
  refine ⟨isLUB_datomSet nodes actions, fun node node' hreceived => ?_, fun more node => ?_⟩
  · have hlub := isLUB_datomSet nodes actions node
    rw [hreceived] at hlub
    exact hlub.unique (isLUB_datomSet nodes' actions' node')
  · have hgrows : datomSet ((run nodes actions).nodes node) ≤
        datomSet (((run nodes actions).run rules more).nodes node) :=
      Gossip.le_run (fun write replica => datomSet_write write replica ▸ le_sup_right)
        (fun replica payload => datomSet_merge replica payload ▸ le_sup_left) _ more node
    have happend : run nodes (actions ++ more) = (run nodes actions).run rules more :=
      List.foldl_append
    rw [happend]
    exact hgrows

end Replica

section Observations

/-- What valid stores show, with the join of merges. -/
abbrev ValidObservation : Type :=
  {o : Observation // o.Valid}

instance : Max ValidObservation :=
  ⟨fun a b => ⟨a.1.merge b.1, a.2.merge b.2⟩⟩

instance : SemilatticeSup ValidObservation :=
  .mk' (fun a b => Subtype.ext (Observation.merge_comm a.1 b.1))
    (fun a b c => Subtype.ext (Observation.merge_assoc a.1 b.1 c.1))
    fun a => Subtype.ext a.2.merge_self

namespace Replica

variable {ι : Type} [DecidableEq ι]

/-- Replicas that only merge. -/
def merging : Replication Empty Replica where
  write write _ := write.elim
  merge := rules.merge

/-- All that a replica shows. -/
def shows (replica : Replica) : ValidObservation :=
  ⟨replica.1.obs, replica.2.valid⟩

/-- There is no local write to record. -/
def noElement (write : Empty) (_ : Replica) : ValidObservation := write.elim

/-- The replicas after a run of merges. -/
def mergeRun (nodes : ι → Replica) (actions : List (GossipAction ι Empty)) : Gossip ι Replica :=
  (Gossip.start nodes).run merging actions

/-- The replicas with what they have received: what they showed at first and what the senders of the
snapshots that they merged had received. -/
def recordedMergeRun (nodes : ι → Replica) (actions : List (GossipAction ι Empty)) :
    Gossip ι (Replica × Set ValidObservation) :=
  (Gossip.start fun node => (nodes node, {(nodes node).shows})).run
    (merging.recording noElement) actions

/-- What a replica has received in a run of merges. -/
def mergedFrom (nodes : ι → Replica) (actions : List (GossipAction ι Empty)) (node : ι) :
    Set ValidObservation :=
  ((recordedMergeRun nodes actions).nodes node).2

/-- The recorded run of merges is the run of merges, without the record. -/
theorem erase_recordedMergeRun (nodes : ι → Replica) (actions : List (GossipAction ι Empty)) :
    (recordedMergeRun nodes actions).erase = mergeRun nodes actions :=
  Gossip.erase_run _ actions

/-- A merge joins what both sides show. -/
theorem shows_merge (replica payload : Replica) :
    (merging.merge replica payload).shows = replica.shows ⊔ payload.shows :=
  Subtype.ext (Store.obs_fromMerge replica.1 payload.1)

/-- A replica shows the join of what it has received. -/
theorem isLUB_shows (nodes : ι → Replica) (actions : List (GossipAction ι Empty)) (node : ι) :
    IsLUB (mergedFrom nodes actions node) ((mergeRun nodes actions).nodes node).shows := by
  have hstart : (Gossip.start fun node => (nodes node, {(nodes node).shows})).All
      fun a : Replica × Set ValidObservation => IsLUB a.2 a.1.shows :=
    Gossip.all_start fun node => isLUB_singleton
  have hwrite (write : Empty) (replica : Replica) :
      (merging.write write replica).shows = noElement write replica ⊔ replica.shows :=
    write.elim
  have hall := Gossip.isLUB_received hwrite shows_merge hstart actions
  rw [← erase_recordedMergeRun]
  exact hall.node node

/-- In any runs of merges of any replicas: a replica shows the join of what it has received, and two
that have received the same agree on their datoms, schemas, epochs, genesis nodes and LIVE maps. -/
theorem merges_agree (nodes nodes' : ι → Replica) (actions actions' : List (GossipAction ι Empty)) :
    (∀ node, IsLUB (mergedFrom nodes actions node) ((mergeRun nodes actions).nodes node).shows) ∧
    ∀ node node', mergedFrom nodes actions node = mergedFrom nodes' actions' node' →
      ((mergeRun nodes actions).nodes node).1.obs =
        ((mergeRun nodes' actions').nodes node').1.obs := by
  refine ⟨isLUB_shows nodes actions, fun node node' hmerged => ?_⟩
  have hlub := isLUB_shows nodes actions node
  rw [hmerged] at hlub
  exact congrArg Subtype.val (hlub.unique (isLUB_shows nodes' actions' node'))

end Replica

end Observations

section Refinement

open Checker

namespace Replica

variable {n : Nat}

/-- The replicas as the model of the checker shows them. -/
def crdtState (state : Gossip (Fin n) Replica) : CrdtState Datom where
  nodes := List.ofFn fun node => (state.nodes node).datomSet
  inFlight := state.inFlight.map fun message =>
    (message.1.val, message.2.1.val, message.2.2.datomSet)
  receivedWrites := List.ofFn fun node => (state.nodes node).datomSet

/-- The network of the model neither repeats nor loses snapshots. -/
def Delivers : GossipAction (Fin n) LocalWrite → Prop
  | .duplicate _ => False
  | .drop _ => False
  | _ => True

/-- The datoms that a step writes. -/
def stepWrites (state : Gossip (Fin n) Replica) : GossipAction (Fin n) LocalWrite → List Datom
  | .write node write => write.written (state.nodes node).1
  | _ => []

/-- The datoms that a run writes. -/
def runWrites (state : Gossip (Fin n) Replica) : List (GossipAction (Fin n) LocalWrite) → List Datom
  | [] => []
  | action :: rest => stepWrites state action ++ runWrites (state.step rules action) rest

/-- The model of the checker at the bounds of a run: as many replicas, the datoms that the run
writes, and room for as many snapshots as it has steps. -/
def crdtModel (n : Nat) (datoms : List Datom) (room : Nat) : CrdtModel Datom where
  nodeCount := n
  datoms := datoms
  isInDomain d := decide (d ∈ datoms)
  maxInFlight := room

omit [Blake3] in
/-- To change one item of a listed function is to list the changed function. -/
theorem modify_ofFn {α : Type} (f : Fin n → α) (node : Fin n) (g : α → α) :
    (List.ofFn f).modify node.val g = List.ofFn (Function.update f node (g (f node))) := by
  refine List.ext_getElem? fun index => ?_
  rw [List.getElem?_modify, List.getElem?_ofFn, List.getElem?_ofFn]
  by_cases hindex : index < n
  · simp only [dif_pos hindex]
    by_cases hsame : node.val = index
    · have hnode : (⟨index, hindex⟩ : Fin n) = node := Fin.ext hsame.symm
      simp only [hnode, Function.update_self, if_pos hsame, Option.map_eq_map, Option.map_some]
    · have hnode : (⟨index, hindex⟩ : Fin n) ≠ node := fun heq => hsame (congrArg Fin.val heq).symm
      simp only [Function.update_of_ne hnode, if_neg hsame, Option.map_eq_map, Option.map_some]
  · simp only [dif_neg hindex, Option.map_eq_map, Option.map_none]

/-- The datoms of the updated nodes are the updated datoms. -/
theorem datomSet_update (state : Gossip (Fin n) Replica) (node : Fin n) (later : Replica) :
    (fun other => (Function.update state.nodes node later other).datomSet) =
      Function.update (fun other => (state.nodes other).datomSet) node later.datomSet := by
  funext other
  by_cases hsame : other = node
  · rw [hsame, Function.update_self, Function.update_self]
  · rw [Function.update_of_ne hsame, Function.update_of_ne hsame]

/-- A node of the model has the datoms of the replica. -/
theorem node_crdtState (state : Gossip (Fin n) Replica) (node : Fin n) :
    (crdtState state).node node.val = (state.nodes node).datomSet := by
  rw [CrdtState.node, crdtState, List.getElem?_ofFn, dif_pos node.isLt]
  rfl

/-- A step of the replicas is made of steps of the model. -/
theorem steps_step {datoms : List Datom} {room : Nat} {state : Gossip (Fin n) Replica}
    (h : CrdtModel.Inv (crdtModel n datoms room) (crdtState state))
    {action : GossipAction (Fin n) LocalWrite} (haction : Delivers action)
    (hwrites : ∀ d ∈ stepWrites state action, d ∈ datoms) (hroom : state.inFlight.length < room) :
    (crdtModel n datoms room).checked.Steps (crdtState state)
      (crdtState (state.step rules action)) := by
  have hflight : (crdtState state).inFlight.length < room := by
    rw [crdtState, List.length_map]
    exact hroom
  cases action with
  | write node write =>
      have hsteps := h.steps_writes node.isLt hwrites
        (fun d hd => decide_eq_true (hwrites d hd)) hflight.le
      have hnodes : (crdtState state).nodes.modify node.val
          ((stepWrites state (.write node write)).toFinset ∪ ·) =
            (crdtState (state.step rules (.write node write))).nodes := by
        simp only [crdtState, modify_ofFn, Gossip.step, datomSet_update, datomSet_write]
        rfl
      have hreceived : (crdtState state).receivedWrites = (crdtState state).nodes := rfl
      rw [hreceived, hnodes] at hsteps
      exact hsteps
  | initMerge source target =>
      rw [Gossip.step]
      split
      case isTrue => exact .refl _
      case isFalse hne =>
          have hsteps := h.steps_queue source.isLt target.isLt
            (fun heq => hne (Fin.ext heq)) hflight
          rw [node_crdtState] at hsteps
          have hsent : crdtState ({ state with
              inFlight := state.inFlight ++ [(source, target, state.nodes source)] }) =
              { crdtState state with
                inFlight := (crdtState state).inFlight ++
                  [(source.val, target.val, (state.nodes source).datomSet)] } := by
            simp only [crdtState, List.map_append, List.map_cons, List.map_nil]
          rw [hsent]
          exact hsteps
  | deliverMerge index =>
      rw [Gossip.step]
      cases hget : state.inFlight[index]? with
      | none => exact .refl _
      | some message =>
          obtain ⟨source, target, payload⟩ := message
          have hshown : (crdtState state).inFlight[index]? =
              some (source.val, target.val, payload.datomSet) := by
            simp only [crdtState, List.getElem?_map, hget, Option.map_some]
          have hsteps := h.steps_deliver hshown hflight.le
          have hmerged : crdtState ⟨Function.update state.nodes target
                (rules.merge (state.nodes target) payload), state.inFlight.eraseIdx index⟩ =
              { nodes := (crdtState state).nodes.modify target.val (mergeSets · payload.datomSet)
                inFlight := (crdtState state).inFlight.eraseIdx index
                receivedWrites :=
                  (crdtState state).receivedWrites.modify target.val (· ∪ payload.datomSet) } := by
            simp only [crdtState, modify_ofFn, datomSet_update, datomSet_merge,
              List.eraseIdx_map]
            rfl
          simp only [hmerged]
          exact hsteps
  | duplicate index => exact haction.elim
  | drop index => exact haction.elim

/-- One step puts at most one payload in flight. -/
theorem length_step_le (state : Gossip (Fin n) Replica) {action : GossipAction (Fin n) LocalWrite}
    (haction : Delivers action) :
    (state.step rules action).inFlight.length ≤ state.inFlight.length + 1 := by
  fun_cases Gossip.step rules state action with
  | case3 source target hne => rw [List.length_append]; rfl
  | case5 => exact (List.length_eraseIdx_le ..).trans (Nat.le_succ _)
  | case7 => exact haction.elim
  | case8 => exact haction.elim
  | _ => exact Nat.le_succ _

/-- A run within the room of the model is a run of the model. -/
theorem steps_run {datoms : List Datom} {room : Nat} {state : Gossip (Fin n) Replica}
    (h : CrdtModel.Inv (crdtModel n datoms room) (crdtState state))
    {actions : List (GossipAction (Fin n) LocalWrite)}
    (hactions : ∀ action ∈ actions, Delivers action)
    (hwrites : ∀ d ∈ runWrites state actions, d ∈ datoms)
    (hroom : state.inFlight.length + actions.length ≤ room) :
    (crdtModel n datoms room).checked.Steps (crdtState state)
      (crdtState (state.run rules actions)) := by
  induction actions generalizing state with
  | nil => exact .refl _
  | cons action rest ih =>
      obtain ⟨hfirst, hrest⟩ := List.forall_mem_cons.mp hactions
      rw [List.length_cons] at hroom
      have hstep := steps_step h hfirst
        (fun d hd => hwrites d (List.mem_append_left _ hd)) (by omega)
      have hlength := length_step_le state hfirst
      refine hstep.trans (ih ((CrdtModel.invariant_checked _).steps h hstep) hrest
        (fun d hd => hwrites d (List.mem_append_right _ hd)) (by omega))

/-- New replicas: empty stores. -/
def fresh (ι : Type) : ι → Replica := fun _ => ⟨Store.genesis, .genesis⟩

/-- Every run of replicas from empty stores over a network that delivers each snapshot at most once
is a run of the model of the checker. -/
theorem replicas_refine (actions : List (GossipAction (Fin n) LocalWrite))
    (hactions : ∀ action ∈ actions, Delivers action) :
    (crdtModel n (runWrites (Gossip.start (fresh (Fin n))) actions)
      actions.length).checked.Reachable (crdtState (run (fresh (Fin n)) actions)) := by
  have hempty : crdtState (Gossip.start (fresh (Fin n))) =
      ⟨List.replicate n ∅, [], List.replicate n ∅⟩ := by
    have hset : (fun _ : Fin n => Store.genesis.datomSet) = fun _ => ∅ := by
      rw [Store.datomSet_genesis]
    simp only [crdtState, Gossip.start, fresh, datomSet, hset, List.ofFn_const, List.map_nil]
  have hinit : crdtState (Gossip.start (fresh (Fin n))) ∈
      (crdtModel n
        (runWrites (Gossip.start (fresh (Fin n))) actions) actions.length).initStates := by
    rw [hempty]
    exact List.mem_singleton.mpr rfl
  have hinv := CrdtModel.inv_init _ _ hinit
  refine (Model.Reachable.init hinit (hinv.withinBoundary (Nat.zero_le _))).steps ?_
  exact steps_run hinv hactions (fun d hd => hd) (by simp [Gossip.start])

end Replica

end Refinement

end Replicas

open Checker Sample

/-- A replica writes a datom and sends its store to another one, where it is merged. -/
theorem Replica.replicas_refine_exchange :
    (crdtModel 2 (runWrites (Gossip.start (fresh (Fin 2)))
        [.write 0 (.insert asserted), .initMerge 0 1, .deliverMerge 0]) 3).checked.Reachable
      (crdtState (run (fresh (Fin 2))
        [.write 0 (.insert asserted), .initMerge 0 1, .deliverMerge 0])) := by
  refine replicas_refine _ fun action haction => ?_
  simp only [List.mem_cons, List.not_mem_nil, or_false] at haction
  rcases haction with rfl | rfl | rfl <;> trivial

end Ferratomic
