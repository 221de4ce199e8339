import Mathlib

/-!
# Parties that exchange snapshots

Every party holds a state. It may update its state, send a snapshot of it to another party, and
merge a snapshot that reaches it. The network may reorder, repeat and lose snapshots.

Where the states show elements of a semilattice, an update joins an element and a merge joins what
the snapshot shows, every party shows the least upper bound of all that it has received
(`Gossip.isLUB_received`), in whatever order and however often it was delivered.
-/

namespace Ferratomic.Lib

/-- The parties and the snapshots that are on the way, each with its source and its target. -/
structure Gossip (ι α : Type) where
  nodes : ι → α
  inFlight : List (ι × ι × α)

/-- What may happen: an update, a snapshot that is sent or received, and what a network does. -/
inductive GossipAction (ι υ : Type) where
  | write (node : ι) (update : υ)
  | initMerge (source target : ι)
  | deliverMerge (index : Nat)
  | duplicate (index : Nat)
  | drop (index : Nat)

/-- How a state is updated and how a snapshot is merged into it. -/
structure Replication (υ α : Type) where
  write : υ → α → α
  merge : α → α → α

namespace Replication

variable {υ α β : Type}

/-- Record next to a state what it has received: the elements of the updates made here and all that
is recorded with the snapshots merged. -/
def recording (rules : Replication υ α) (element : υ → α → β) : Replication υ (α × Set β) where
  write update state := (rules.write update state.1, insert (element update state.1) state.2)
  merge state payload := (rules.merge state.1 payload.1, state.2 ∪ payload.2)

end Replication

namespace Gossip

variable {ι υ α β : Type} [DecidableEq ι]

/-- One step. Nothing happens where there is no snapshot of the given index, and a party does not
send to itself. -/
def step (rules : Replication υ α) (state : Gossip ι α) : GossipAction ι υ → Gossip ι α
  | .write node update =>
      { state with
        nodes := Function.update state.nodes node (rules.write update (state.nodes node)) }
  | .initMerge source target =>
      if source = target then state
      else { state with inFlight := state.inFlight ++ [(source, target, state.nodes source)] }
  | .deliverMerge index =>
      match state.inFlight[index]? with
      | none => state
      | some (_, target, payload) =>
          { nodes := Function.update state.nodes target (rules.merge (state.nodes target) payload)
            inFlight := state.inFlight.eraseIdx index }
  | .duplicate index =>
      match state.inFlight[index]? with
      | none => state
      | some message => { state with inFlight := state.inFlight ++ [message] }
  | .drop index => { state with inFlight := state.inFlight.eraseIdx index }

/-- Several steps. -/
def run (rules : Replication υ α) (state : Gossip ι α) (actions : List (GossipAction ι υ)) :
    Gossip ι α :=
  actions.foldl (step rules) state

/-- No action changes nothing. -/
@[simp]
theorem run_nil (rules : Replication υ α) (state : Gossip ι α) : run rules state [] = state := rfl

/-- Actions are taken one after another. -/
@[simp]
theorem run_cons (rules : Replication υ α) (state : Gossip ι α) (action : GossipAction ι υ)
    (actions : List (GossipAction ι υ)) :
    run rules state (action :: actions) = run rules (step rules state action) actions := rfl

omit [DecidableEq ι] in
/-- Parties with the given states, and nothing on the way. -/
def start (nodes : ι → α) : Gossip ι α := ⟨nodes, []⟩

section Invariants

omit [DecidableEq ι] in
/-- A property of all parties and all snapshots on the way. -/
structure All (property : α → Prop) (state : Gossip ι α) : Prop where
  node : ∀ node, property (state.nodes node)
  payload : ∀ message ∈ state.inFlight, property message.2.2

variable {rules : Replication υ α} {property : α → Prop} {state : Gossip ι α}

omit [DecidableEq ι] in
/-- A property of every node holds of the start. -/
theorem all_start {nodes : ι → α} (h : ∀ node, property (nodes node)) :
    (start nodes).All property :=
  ⟨h, fun _ hmessage => absurd hmessage List.not_mem_nil⟩

/-- A property of every node is kept when one node is updated to a state that has it. -/
theorem All.update (h : state.All property) {later : α} (hlater : property later) (target : ι) :
    ∀ node, property (Function.update state.nodes target later node) := by
  intro node
  by_cases hown : node = target
  · rw [hown, Function.update_self]
    exact hlater
  · rw [Function.update_of_ne hown]
    exact h.node node

/-- What updates and merges keep is kept by every step. -/
theorem All.step (h : state.All property)
    (hwrite : ∀ update a, property a → property (rules.write update a))
    (hmerge : ∀ a b, property a → property b → property (rules.merge a b))
    (action : GossipAction ι υ) : (state.step rules action).All property := by
  have hpayload {index : Nat} {message : ι × ι × α} (hget : state.inFlight[index]? = some message) :
      property message.2.2 := h.payload message (List.mem_of_getElem? hget)
  fun_cases Gossip.step rules state action with
  | case1 node update => exact ⟨h.update (hwrite update _ (h.node node)) node, h.payload⟩
  | case3 source target hne =>
      refine ⟨h.node, fun message hmessage => ?_⟩
      rcases List.mem_append.mp hmessage with hold | hnew
      · exact h.payload message hold
      · rw [List.mem_singleton.mp hnew]
        exact h.node source
  | case5 index source target payload hget =>
      exact ⟨h.update (hmerge _ _ (h.node target) (hpayload hget)) target,
        fun message hmessage => h.payload message (List.mem_of_mem_eraseIdx hmessage)⟩
  | case7 index message hget =>
      refine ⟨h.node, fun other hother => ?_⟩
      rcases List.mem_append.mp hother with hold | hnew
      · exact h.payload other hold
      · rw [List.mem_singleton.mp hnew]
        exact hpayload hget
  | case8 index =>
      exact ⟨h.node, fun message hmessage => h.payload message (List.mem_of_mem_eraseIdx hmessage)⟩
  | _ => exact h

/-- What updates and merges keep is kept by every run. -/
theorem All.run (h : state.All property)
    (hwrite : ∀ update a, property a → property (rules.write update a))
    (hmerge : ∀ a b, property a → property b → property (rules.merge a b))
    (actions : List (GossipAction ι υ)) : (state.run rules actions).All property := by
  induction actions generalizing state with
  | nil => exact h
  | cons action rest ih => exact ih (h.step hwrite hmerge action)

end Invariants

section Growth

variable [Preorder β] {rules : Replication υ α} {view : α → β}

/-- Where updates and merges never lower what a state shows, no run does. -/
theorem le_run (hwrite : ∀ update a, view a ≤ view (rules.write update a))
    (hmerge : ∀ a b, view a ≤ view (rules.merge a b)) (state : Gossip ι α)
    (actions : List (GossipAction ι υ)) (node : ι) :
    view (state.nodes node) ≤ view ((state.run rules actions).nodes node) := by
  induction actions generalizing state with
  | nil => exact le_refl _
  | cons action rest ih =>
      refine le_trans ?_ (ih (state.step rules action))
      have hupdate {target : ι} {later : α} (hle : view (state.nodes target) ≤ view later) :
          view (state.nodes node) ≤ view (Function.update state.nodes target later node) := by
        by_cases hown : node = target
        · rw [hown, Function.update_self]
          exact hle
        · rw [Function.update_of_ne hown]
      fun_cases Gossip.step rules state action with
      | case1 target update => exact hupdate (hwrite update _)
      | case5 index source target payload hget => exact hupdate (hmerge _ payload)
      | _ => exact le_refl _

end Growth

section Recording

variable {rules : Replication υ α} {element : υ → α → β}

/-- The state without what is recorded. -/
def erase (state : Gossip ι (α × Set β)) : Gossip ι α where
  nodes node := (state.nodes node).1
  inFlight := state.inFlight.map fun message => (message.1, message.2.1, message.2.2.1)

/-- Recording does not change what happens. -/
theorem erase_step (state : Gossip ι (α × Set β)) (action : GossipAction ι υ) :
    (state.step (rules.recording element) action).erase = state.erase.step rules action := by
  have hupdate (target : ι) (later : α × Set β) :
      (fun node => (Function.update state.nodes target later node).1) =
        Function.update (fun node => (state.nodes node).1) target later.1 := by
    funext node
    by_cases hown : node = target
    · rw [hown, Function.update_self, Function.update_self]
    · rw [Function.update_of_ne hown, Function.update_of_ne hown]
  cases action with
  | write node update => simp only [step, erase, hupdate, Replication.recording]
  | initMerge source target =>
      simp only [step]
      split
      · rfl
      · simp only [erase, List.map_append, List.map_cons, List.map_nil]
  | deliverMerge index =>
      cases hget : state.inFlight[index]? with
      | none => simp only [step, erase, List.getElem?_map, hget, Option.map_none]
      | some message =>
          simp only [step, erase, List.getElem?_map, hget, Option.map_some, hupdate,
            Replication.recording, List.eraseIdx_map]
  | duplicate index =>
      cases hget : state.inFlight[index]? with
      | none => simp only [step, erase, List.getElem?_map, hget, Option.map_none]
      | some message =>
          simp only [step, erase, List.getElem?_map, hget, Option.map_some, List.map_append,
            List.map_cons, List.map_nil]
  | drop index => simp only [step, erase, List.eraseIdx_map]

/-- A recorded run is the run, without the record. -/
theorem erase_run (state : Gossip ι (α × Set β)) (actions : List (GossipAction ι υ)) :
    (state.run (rules.recording element) actions).erase = state.erase.run rules actions := by
  induction actions generalizing state with
  | nil => rfl
  | cons action rest ih =>
      rw [run_cons, run_cons, ih, erase_step]

variable [SemilatticeSup β] {view : α → β}

/-- A state shows the least upper bound of what it has received. -/
theorem isLUB_received
    (hwrite : ∀ update a, view (rules.write update a) = element update a ⊔ view a)
    (hmerge : ∀ a b, view (rules.merge a b) = view a ⊔ view b) {state : Gossip ι (α × Set β)}
    (h : state.All fun a => IsLUB a.2 (view a.1)) (actions : List (GossipAction ι υ)) :
    (state.run (rules.recording element) actions).All fun a => IsLUB a.2 (view a.1) := by
  refine h.run (fun update a ha => ?_) (fun a b ha hb => ?_) actions
  · show IsLUB (insert (element update a.1) a.2) (view (rules.write update a.1))
    rw [hwrite]
    exact ha.insert _
  · show IsLUB (a.2 ∪ b.2) (view (rules.merge a.1 b.1))
    rw [hmerge]
    exact ha.union hb

end Recording

end Gossip

end Ferratomic.Lib
