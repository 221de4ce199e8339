import Ferratomic.Prolly.Closure

/-!
# Resuming a transfer

Runs that stop with an error leave the destination with a part of the tree. The main theorem,
`transfer_resumes_iff`, says when they can be resumed: a later run that succeeds leaves the whole
tree in the destination if and only if no run stopped between its first and its last put.
-/

namespace Ferratomic.Prolly

open Lib

section Transfers

variable [Blake3]

section Runs

/-- A run fails between its first and its last put. -/
def CutShort (ops : List ChunkOp) (fault : Fault) : Prop :=
  ∃ left e, fault = some (left, e) ∧ (∃ chunk, .put chunk ∈ ops.take left) ∧
    ∃ chunk, .put chunk ∈ ops.drop left

variable {src dst : ChunkStore} {root : Hash} {fuel : Nat}

/-- A run performs its schedule and succeeds, or as much of it as comes before the operation that
fails. -/
theorem transfer_outcome (h : WithinDepth src fuel root) (fault : Fault) (dst : ChunkStore) :
    (∃ result, transfer fuel fault src dst root =
        some (.ok result, dst.perform (schedule src fuel root dst)) ∧
      ∀ left e, fault = some (left, e) → (schedule src fuel root dst).length ≤ left) ∨
    ∃ left e, fault = some (left, e) ∧ transfer fuel fault src dst root =
      some (.error e, dst.perform ((schedule src fuel root dst).take left)) := by
  have hperforms := performs_transferRecursive h ⟨dst, fault, ⟨0, 0, 0, root⟩⟩
  unfold Performs at hperforms
  unfold transfer
  -- without a fault, with a fault on the way, and with one after the last operation
  split at hperforms
  case h_1 hfault =>
      have hnone : fault = none := hfault
      obtain ⟨next, hrun, hdst, -⟩ := hperforms
      rw [hrun]
      refine .inl
        ⟨next.result, congrArg (fun store => some (Except.ok next.result, store)) hdst, ?_⟩
      intro left e hsome
      rw [hnone] at hsome
      cases hsome
  case h_2 left e hfault =>
      split at hperforms
      case isTrue =>
          obtain ⟨next, hrun, hdst⟩ := hperforms
          rw [hrun]
          exact .inr ⟨left, e, hfault, congrArg (fun store => some (Except.error e, store)) hdst⟩
      case isFalse hleft =>
          have hsome : fault = some (left, e) := hfault
          obtain ⟨next, hrun, hdst, -⟩ := hperforms
          rw [hrun]
          refine .inl
            ⟨next.result, congrArg (fun store => some (Except.ok next.result, store)) hdst,
            ?_⟩
          intro left' e' hother
          rw [hsome] at hother
          cases hother
          exact Nat.not_lt.mp hleft

/-- The destination that a run leaves. -/
theorem exists_transfer (h : WithinDepth src fuel root) (fault : Fault) (dst : ChunkStore) :
    ∃ outcome after, transfer fuel fault src dst root = some (outcome, after) := by
  rcases transfer_outcome h fault dst with ⟨result, hrun, -⟩ | ⟨left, e, -, hrun⟩
  · exact ⟨_, _, hrun⟩
  · exact ⟨_, _, hrun⟩

/-- A run that is not cut short leaves no subtree unfinished. -/
theorem closed_of_not_cutShort (h : WithinDepth src fuel root) (hclosed : dst.Closed)
    (hagrees : src.Agrees dst) {fault : Fault}
    (hcut : ¬ CutShort (schedule src fuel root dst) fault)
    {outcome : Except FerraError TransferResult} {after : ChunkStore}
    (hrun : transfer fuel fault src dst root = some (outcome, after)) :
    after.Closed ∧ src.Agrees after := by
  have hneeded := needed_schedule h dst
  have hwhole : (dst.perform (schedule src fuel root dst)).Closed ∧
      src.Agrees (dst.perform (schedule src fuel root dst)) :=
    ⟨(closed_schedule h hclosed).1, hneeded.agrees hagrees⟩
  rcases transfer_outcome h fault dst with ⟨result, houtcome, -⟩ | ⟨left, e, rfl, houtcome⟩
  · rw [houtcome] at hrun
    cases hrun
    exact hwhole
  · rw [houtcome] at hrun
    cases hrun
    by_cases hbefore : ∃ chunk, .put chunk ∈ (schedule src fuel root dst).take left
    · -- the last put is done, so that nothing of the schedule is missing
      have hafter : ¬ ∃ chunk, .put chunk ∈ (schedule src fuel root dst).drop left :=
        fun hput => hcut ⟨left, e, rfl, hbefore, hput⟩
      have hall : dst.perform ((schedule src fuel root dst).take left) =
          dst.perform (schedule src fuel root dst) := by
        conv_rhs => rw [← List.take_append_drop left (schedule src fuel root dst),
          ChunkStore.perform_append, ChunkStore.perform_of_no_put hafter]
      rw [hall]
      exact hwhole
    · rw [ChunkStore.perform_of_no_put hbefore]
      exact ⟨hclosed, hagrees⟩

/-- The operations on the root come first, and its put is the third. -/
theorem not_cutShort_of_lt {left : Nat} (h : left < 3) {e : FerraError} (dst : ChunkStore) :
    ¬ CutShort (schedule src fuel root dst) (some (left, e)) := by
  rintro ⟨_, _, hfault, ⟨chunk, hput⟩, -⟩
  cases hfault
  have hput : .put chunk ∈ (schedule src fuel root dst).take 2 :=
    (List.take_sublist_take_left (Nat.le_of_lt_succ h)).subset hput
  cases fuel with
  | zero => exact absurd hput List.not_mem_nil
  | succ fuel =>
      unfold schedule at hput
      split at hput
      case isTrue => simp at hput
      case isFalse =>
          split at hput
          case h_1 => simp at hput
          case h_2 => simp at hput

/-- The fourth operation asks for the first child, after the put of the root; where the child is
missing, its put is still to come. -/
theorem cutShort_of_child (h : WithinDepth src fuel root) (hroot : dst.hasChunk root = false)
    {chunk childChunk : Chunk} (hchunk : src.getChunk root = some chunk) {child : Hash}
    {more : List Hash} (haddrs : decodeChildAddrs chunk.data = .ok (child :: more))
    (hchild : (dst.putChunk chunk).hasChunk child = false)
    (hchildChunk : src.getChunk child = some childChunk) (e : FerraError) :
    CutShort (schedule src fuel root dst) (some (3, e)) := by
  cases fuel with
  | zero => exact h.elim
  | succ fuel =>
      obtain ⟨found, addrs, hfound, haddrs', hbelow⟩ := h
      rw [hchunk] at hfound
      cases hfound
      rw [haddrs] at haddrs'
      cases haddrs'
      rw [schedule_absent hroot hchunk haddrs]
      refine ⟨3, e, rfl, ⟨chunk, by simp⟩, childChunk, ?_⟩
      have hdepth := hbelow child List.mem_cons_self
      cases fuel with
      | zero => exact hdepth.elim
      | succ fuel =>
          obtain ⟨found, addrs, hfound, haddrs', -⟩ := hdepth
          rw [hchildChunk] at hfound
          cases hfound
          show .put childChunk ∈ scheduleAll _ (child :: more) _
          rw [scheduleAll, schedule_absent hchild hchildChunk haddrs']
          simp

/-- The destination has the root and not all that is below it. -/
def Stuck (src : ChunkStore) (root : Hash) (dst : ChunkStore) : Prop :=
  dst.hasChunk root = true ∧ ∃ addr, src.Reaches root addr ∧ dst.hasChunk addr = false

/-- A run that is cut short leaves the root without all that is below it. -/
theorem stuck_of_cutShort (h : WithinDepth src fuel root) {left : Nat} {e : FerraError}
    (hcut : CutShort (schedule src fuel root dst) (some (left, e))) :
    Stuck src root (dst.perform ((schedule src fuel root dst).take left)) := by
  obtain ⟨_, _, hfault, ⟨first, hfirst⟩, last, hlast⟩ := hcut
  cases hfault
  obtain ⟨habsent, -, hbelow⟩ := ((needed_schedule h dst).drop left).absent hlast
  refine ⟨?_, last.addr, hbelow, habsent⟩
  -- the first put of a run is that of the root
  cases fuel with
  | zero => exact h.elim
  | succ fuel =>
      obtain ⟨chunk, addrs, hchunk, haddrs, -⟩ := h
      cases hpresent : dst.hasChunk root with
      | true => exact ChunkStore.hasChunk_perform hpresent _
      | false =>
          rw [schedule_absent hpresent hchunk haddrs] at hfirst ⊢
          match left, hfirst with
          | 0, hfirst => cases hfirst
          | 1, hfirst =>
              cases hfirst with
              | tail _ hfirst => cases hfirst
          | 2, hfirst =>
              cases hfirst with
              | tail _ hfirst =>
                  cases hfirst with
                  | tail _ hfirst => cases hfirst
          | left + 3, hfirst =>
              have hroot := src.keyed _ _ hchunk
              rw [← hroot]
              refine ChunkStore.hasChunk_of_put ?_
              simp

/-- Later runs take the subtree as present and change nothing. -/
theorem Stuck.transfer (h : WithinDepth src fuel root) (hstuck : Stuck src root dst) {fault : Fault}
    {outcome : Except FerraError TransferResult} {after : ChunkStore}
    (hrun : transfer fuel fault src dst root = some (outcome, after)) : after = dst := by
  cases fuel with
  | zero => exact h.elim
  | succ fuel =>
      have hops := @schedule_present _ src dst root hstuck.1 fuel
      rcases transfer_outcome h fault dst with ⟨result, houtcome, -⟩ | ⟨left, e, -, houtcome⟩
      · rw [houtcome] at hrun
        cases hrun
        rw [hops]
        rfl
      · rw [houtcome] at hrun
        cases hrun
        rw [hops]
        refine ChunkStore.perform_of_no_put ?_
        rintro ⟨chunk, hchunk⟩
        have hmem := List.mem_of_mem_take hchunk
        rw [List.mem_singleton] at hmem
        cases hmem

/-- The destination has every chunk below the root and is read as the source is. -/
def Transferred (fuel : Nat) (src dst : ChunkStore) (root : Hash) (kvs : OrdMap Bytes Bytes) :
    Prop :=
  (∀ addr, src.Reaches root addr → dst.hasChunk addr = true) ∧
    readProllyTree fuel root dst = readProllyTree fuel root src ∧
    readProllyTree fuel root dst = some (.ok kvs)

/-- No run of a sequence is cut short. -/
def NoneCutShort (fuel : Nat) (src dst : ChunkStore) (root : Hash) (runs : List Fault) : Prop :=
  ∀ earlier fault later, runs = earlier ++ fault :: later →
    ∀ before, transferRuns fuel src root earlier dst = some before →
      ¬ CutShort (schedule src fuel root before) fault

/-- Runs in two parts are one part after the other. -/
theorem transferRuns_append (earlier later : List Fault) (dst : ChunkStore) :
    transferRuns fuel src root (earlier ++ later) dst =
      (transferRuns fuel src root earlier dst).bind (transferRuns fuel src root later) := by
  induction earlier generalizing dst with
  | nil => rfl
  | cons fault rest ih =>
      rw [List.cons_append, transferRuns, transferRuns]
      cases transfer fuel fault src dst root with
      | none => rfl
      | some outcome => exact ih outcome.2

/-- Runs that are not cut short leave no subtree unfinished. -/
theorem closed_of_noneCutShort (h : WithinDepth src fuel root) {runs : List Fault}
    (hclosed : dst.Closed) (hagrees : src.Agrees dst)
    (hcut : NoneCutShort fuel src dst root runs) {reached : ChunkStore}
    (hruns : transferRuns fuel src root runs dst = some reached) :
    reached.Closed ∧ src.Agrees reached := by
  induction runs generalizing dst with
  | nil =>
      cases hruns
      exact ⟨hclosed, hagrees⟩
  | cons fault rest ih =>
      obtain ⟨outcome, after, hrun⟩ := exists_transfer h fault dst
      obtain ⟨hafter, hagrees'⟩ := closed_of_not_cutShort h hclosed hagrees
        (hcut [] fault rest rfl dst rfl) hrun
      rw [transferRuns, hrun] at hruns
      refine ih hafter hagrees' ?_ hruns
      intro earlier failed later hrest before hbefore
      refine hcut (fault :: earlier) failed later (by rw [hrest]; rfl) before ?_
      rw [transferRuns, hrun]
      exact hbefore

/-- Once a run is cut short, no later run repairs it. -/
theorem Stuck.transferRuns (h : WithinDepth src fuel root) (hstuck : Stuck src root dst)
    {runs : List Fault} {reached : ChunkStore}
    (hruns : Prolly.transferRuns fuel src root runs dst = some reached) : reached = dst := by
  induction runs with
  | nil =>
      cases hruns
      rfl
  | cons fault rest ih =>
      obtain ⟨outcome, after, hrun⟩ := exists_transfer h fault dst
      obtain rfl := hstuck.transfer h hrun
      rw [Prolly.transferRuns, hrun] at hruns
      exact ih hruns

/-- A stuck destination does not have the tree. -/
theorem Stuck.not_transferred (hstuck : Stuck src root dst) {kvs : OrdMap Bytes Bytes} :
    ¬ Transferred fuel src dst root kvs := by
  intro htransferred
  obtain ⟨-, addr, hreaches, habsent⟩ := hstuck
  rw [htransferred.1 addr hreaches] at habsent
  cases habsent

/-- A closed destination that has the root has all that is below it. -/
theorem hasChunk_of_reaches (hclosed : dst.Closed) (hagrees : src.Agrees dst)
    (hroot : dst.hasChunk root = true) {addr : Hash} (h : src.Reaches root addr) :
    dst.hasChunk addr = true := by
  induction h with
  | refl => exact hroot
  | @tail parent child _ hchild hparent =>
      obtain ⟨chunk, addrs, hchunk, haddrs, hmem⟩ := hchild
      obtain ⟨found, hfound⟩ := ChunkStore.hasChunk_eq_true.mp hparent
      obtain rfl := hagrees parent chunk found hchunk hfound
      exact hclosed parent child (Set.notMem_empty parent) ⟨chunk, addrs, hfound, haddrs, hmem⟩

omit [Blake3] in
/-- Children are read alike by readers that agree on them. -/
theorem readChildren_congr {σ : Type} {read other : Hash → σ → Option (Except FerraError σ)}
    {addrs : List Hash} (h : ∀ addr ∈ addrs, read addr = other addr) (result : σ) :
    readChildren read addrs result = readChildren other addrs result := by
  induction addrs generalizing result with
  | nil => rfl
  | cons addr rest ih =>
      have hrest := ih fun next hnext => h next (List.mem_cons_of_mem _ hnext)
      unfold readChildren
      rw [h addr List.mem_cons_self]
      split
      case h_1 => exact hrest _
      case h_2 => rfl
      case h_3 => rfl

/-- Stores with the same chunks below an address are read alike from there. -/
theorem readSubtreeWith_congr {σ : Type} {collect : σ → List KvEntry → σ} {addr : Hash}
    (h : ∀ below, src.Reaches addr below → dst.getChunk below = src.getChunk below) (fuel : Nat)
    (result : σ) :
    readSubtreeWith collect dst fuel addr result =
      readSubtreeWith collect src fuel addr result := by
  induction fuel generalizing addr result with
  | zero => rfl
  | succ fuel ih =>
      have hload : dst.loadChunk "INV-FERR-049" "during tree traversal" addr =
          src.loadChunk "INV-FERR-049" "during tree traversal" addr := by
        simp only [ChunkStore.loadChunk, h addr .refl]
      unfold readSubtreeWith
      rw [hload]
      cases hchunk : src.getChunk addr with
      | none => simp only [ChunkStore.loadChunk, hchunk]
      | some chunk =>
          rw [ChunkStore.loadChunk_ok hchunk]
          cases haddrs : decodeChildAddrs chunk.data with
          | error e => simp only [haddrs]
          | ok addrs =>
              have hbelow : ∀ child ∈ addrs, readSubtreeWith collect dst fuel child =
                  readSubtreeWith collect src fuel child := by
                intro child hchild
                funext result
                refine ih (fun below hbelow => h below ?_) result
                exact .head ⟨chunk, addrs, hchunk, haddrs, hchild⟩ hbelow
              simp only [haddrs, readChildren_congr hbelow]

/-- A tree that a store holds is within its depth. -/
theorem Holds.withinDepth {n : Nat} {tree : Tree n} {addr : Hash}
    (h : Holds src.stored tree addr) (hfuel : n < fuel) : WithinDepth src fuel addr := by
  obtain ⟨fuel, rfl⟩ : ∃ less, fuel = less + 1 := ⟨fuel - 1, by omega⟩
  induction n generalizing addr fuel with
  | zero =>
      obtain ⟨chunk, hchunk, hdata, -⟩ := h
      obtain ⟨rest, htag⟩ := serializeLeafChunk_tag hdata
      refine ⟨chunk, [], hchunk, ?_, fun child hchild => absurd hchild List.not_mem_nil⟩
      rw [htag]
      rfl
  | succ n ih =>
      obtain ⟨chunk, level, children, hchunk, hdata, hchildren⟩ := h
      refine ⟨chunk, children.map Prod.snd, hchunk, decodeChildAddrs_ok hdata, ?_⟩
      intro child hchild
      obtain ⟨entry, hentry, rfl⟩ := List.mem_map.mp hchild
      obtain ⟨sub, -, hsub⟩ := exists_of_forall₂ hchildren hentry
      obtain ⟨fuel, rfl⟩ : ∃ less, fuel = less + 1 := ⟨fuel - 1, by omega⟩
      exact ih hsub fuel (by omega)

/-- The source has all chunks below a root within its depth. -/
theorem exists_getChunk_of_reaches (h : WithinDepth src fuel root) {addr : Hash}
    (hreaches : src.Reaches root addr) : ∃ chunk, src.getChunk addr = some chunk := by
  induction hreaches using Relation.ReflTransGen.head_induction_on generalizing fuel with
  | refl =>
      cases fuel with
      | zero => exact h.elim
      | succ fuel =>
          obtain ⟨chunk, addrs, hchunk, -⟩ := h
          exact ⟨chunk, hchunk⟩
  | head hchild _ ih =>
      cases fuel with
      | zero => exact h.elim
      | succ fuel =>
          obtain ⟨chunk, addrs, hchunk, haddrs, hbelow⟩ := h
          obtain ⟨chunk', addrs', hchunk', haddrs', hmem⟩ := hchild
          rw [hchunk] at hchunk'
          cases hchunk'
          rw [haddrs] at haddrs'
          cases haddrs'
          exact ih (hbelow _ hmem)

/-- Stores without two byte strings of one hash agree. -/
theorem agrees_of_injOn (h : Set.InjOn Blake3.hash (src.contents ∪ dst.contents)) :
    src.Agrees dst := by
  intro addr a b ha hb
  have haddr : Blake3.hash a.data = Blake3.hash b.data := by
    rw [← a.addr_eq, ← b.addr_eq, src.keyed _ _ ha, dst.keyed _ _ hb]
  exact Chunk.eq_of_data (h (.inl ⟨addr, a, ha, rfl⟩) (.inr ⟨addr, b, hb, rfl⟩) haddr)

/-- Runs of a transfer always come to an end. -/
theorem exists_transferRuns (h : WithinDepth src fuel root) (runs : List Fault) (dst : ChunkStore) :
    ∃ reached, transferRuns fuel src root runs dst = some reached := by
  induction runs generalizing dst with
  | nil => exact ⟨dst, rfl⟩
  | cons fault rest ih =>
      obtain ⟨outcome, after, hrun⟩ := exists_transfer h fault dst
      rw [transferRuns, hrun]
      exact ih after

/-- A run that is cut short leaves the destination stuck whatever runs come later. -/
theorem stuck_of_cutShort_runs (h : WithinDepth src fuel root) {runs earlier later : List Fault}
    {fault : Fault} (hsplit : runs = earlier ++ fault :: later) {before reached : ChunkStore}
    (hbefore : transferRuns fuel src root earlier dst = some before)
    (hcut : CutShort (schedule src fuel root before) fault)
    (hruns : transferRuns fuel src root runs dst = some reached) : Stuck src root reached := by
  rw [hsplit, transferRuns_append, hbefore, Option.bind_some, transferRuns] at hruns
  obtain ⟨left, e, rfl, hfirst, chunk, hchunk⟩ := hcut
  rcases transfer_outcome h (some (left, e)) before with ⟨result, -, hlength⟩ |
    ⟨left', e', hfault, hrun⟩
  · rw [List.drop_eq_nil_of_le (hlength left e rfl)] at hchunk
    exact absurd hchunk List.not_mem_nil
  · cases hfault
    have hstuck := stuck_of_cutShort h ⟨left, e, rfl, hfirst, chunk, hchunk⟩
    rw [hrun] at hruns
    rw [hstuck.transferRuns h hruns]
    exact hstuck

/-- A run that succeeds from a destination without unfinished subtrees leaves the whole tree. -/
theorem transferred_of_closed (h : WithinDepth src fuel root) (hclosed : dst.Closed)
    (hagrees : src.Agrees dst) {fault : Fault} {result : TransferResult} {whole : ChunkStore}
    (hrun : transfer fuel fault src dst root = some (.ok result, whole)) (depth : Nat) :
    (∀ addr, src.Reaches root addr → whole.hasChunk addr = true) ∧
      readProllyTree depth root whole = readProllyTree depth root src := by
  rcases transfer_outcome h fault dst with ⟨result', houtcome, -⟩ | ⟨left, e, -, houtcome⟩
  · rw [houtcome] at hrun
    cases hrun
    obtain ⟨hwhole, hroot⟩ := closed_schedule h hclosed
    have hagrees' := (needed_schedule h dst).agrees hagrees
    have hall : ∀ addr, src.Reaches root addr →
        (dst.perform (schedule src fuel root dst)).hasChunk addr = true := fun addr haddr =>
      hasChunk_of_reaches hwhole hagrees' hroot haddr
    refine ⟨hall, readSubtreeWith_congr (fun below hbelow => ?_) depth ∅⟩
    obtain ⟨found, hfound⟩ := ChunkStore.hasChunk_eq_true.mp (hall below hbelow)
    obtain ⟨chunk, hchunk⟩ := exists_getChunk_of_reaches h hbelow
    rw [hfound, hchunk, hagrees' below chunk found hchunk hfound]
  · rw [houtcome] at hrun
    cases hrun

variable [Blake3DeriveKey]

/-- Take a source with the chunks of a build and a destination in which the children of every chunk
are there. After any runs of the transfer, of which some fail at some operation, a run that succeeds
leaves the whole tree in the destination if and only if no run was cut short. -/
theorem transfer_resumes_iff {kvs : OrdMap Bytes Bytes} {patternWidth : Fin 64}
    (hbuild : (buildWrites kvs patternWidth).1 = .ok root)
    (hsrc : ∀ chunk ∈ (buildWrites kvs patternWidth).2, src.getChunk chunk.addr = some chunk)
    (hhash : Set.InjOn Blake3.hash (src.contents ∪ dst.contents)) (hclosed : dst.Closed) :
    ∃ depth, ∀ fuel ≥ depth, ∀ runs, ∃ reached,
      transferRuns fuel src root runs dst = some reached ∧
      (∃ result whole, transfer fuel none src reached root = some (.ok result, whole)) ∧
      ∀ fault result whole, transfer fuel fault src reached root = some (.ok result, whole) →
        (Transferred fuel src whole root kvs ↔ NoneCutShort fuel src dst root runs) := by
  obtain ⟨n, tree, hentries, hstored⟩ := BuiltIn.holds ⟨hbuild, hsrc⟩
  refine ⟨n + 1, fun fuel hfuel runs => ?_⟩
  have hdepth : WithinDepth src fuel root := hstored.withinDepth hfuel
  obtain ⟨reached, hruns⟩ := exists_transferRuns hdepth runs dst
  refine ⟨reached, hruns, ?_,
    fun fault result whole hrun => ⟨fun htransferred => ?_, fun hcut => ?_⟩⟩
  · rcases transfer_outcome hdepth none reached with ⟨result, hrun, -⟩ | ⟨left, e, hfault, -⟩
    · exact ⟨result, _, hrun⟩
    · cases hfault
  · intro earlier failed later hsplit before hbefore hcutShort
    have hstuck := stuck_of_cutShort_runs hdepth hsplit hbefore hcutShort hruns
    obtain rfl := hstuck.transfer hdepth hrun
    exact hstuck.not_transferred htransferred
  · obtain ⟨hreached, hagrees⟩ :=
      closed_of_noneCutShort hdepth hclosed (agrees_of_injOn hhash) hcut hruns
    have hread : readProllyTree fuel root src = some (.ok kvs) := by
      rw [readProllyTree_ok hstored hfuel, hentries, insertAll_toList]
    obtain ⟨hall, hsame⟩ := transferred_of_closed hdepth hreached hagrees hrun fuel
    exact ⟨hall, hsame, hsame.trans hread⟩

end Runs

end Transfers

section Sample

/-- A store with the chunks of the map. -/
def manySource : ChunkStore :=
  ChunkStore.empty.putAll manyChunks

/-- The chunks of the map have different hashes. -/
theorem injOn_manyChunks :
    Set.InjOn Blake3.hash {data | ∃ chunk ∈ manyChunks, chunk.data = data} := by
  have hinj : Set.InjOn Blake3.hash (written manyMap 0) := injOn_of_nodup nodup_hashes_manyChunks
    fun data hdata => List.mem_cons_of_mem _ (mem_written_manyMap hdata)
  rwa [written, buildWrites_manyMap] at hinj

/-- The hash is injective on the chunks of the sample source. -/
theorem injOn_manySource :
    Set.InjOn Blake3.hash (manySource.contents ∪ ChunkStore.empty.contents) := by
  refine injOn_manyChunks.mono ?_
  rw [ChunkStore.contents_empty, Set.union_empty]
  have hput := ChunkStore.contents_putAll ChunkStore.empty manyChunks
  rwa [ChunkStore.contents_empty, Set.empty_union] at hput

/-- The sample source holds every chunk of the sample map. -/
theorem getChunk_manySource {chunk : Chunk} (h : chunk ∈ manyChunks) :
    manySource.getChunk chunk.addr = some chunk := by
  refine ChunkStore.getChunk_putAll ?_ h
  rw [ChunkStore.contents_empty, Set.empty_union]
  exact injOn_manyChunks

/-- The empty store is closed. -/
theorem closed_empty : ChunkStore.empty.Closed := by
  rintro addr child - ⟨chunk, addrs, hchunk, -⟩
  cases hchunk

/-- The sample source holds every chunk that the build writes. -/
theorem source_manyMap :
    ∀ chunk ∈ (buildWrites manyMap 0).2, manySource.getChunk chunk.addr = some chunk := by
  rw [buildWrites_manyMap]
  exact fun chunk => getChunk_manySource

/-- An operation that fails before anything is put does no harm. -/
theorem transfer_resumes_iff_manyMap : ∃ depth, ∀ fuel ≥ depth, ∃ reached result whole,
    transferRuns fuel manySource (Blake3.hash manyRoot) [some (1, .io "TimedOut" "get_chunk")]
      ChunkStore.empty = some reached ∧
    transfer fuel none manySource reached (Blake3.hash manyRoot) = some (.ok result, whole) ∧
    Transferred fuel manySource whole (Blake3.hash manyRoot) manyMap := by
  obtain ⟨depth, hdepth⟩ := transfer_resumes_iff (congrArg Prod.fst buildWrites_manyMap)
    source_manyMap injOn_manySource closed_empty
  refine ⟨depth, fun fuel hfuel => ?_⟩
  obtain ⟨reached, hruns, ⟨result, whole, hrun⟩, hiff⟩ :=
    hdepth fuel hfuel [some (1, .io "TimedOut" "get_chunk")]
  refine ⟨reached, result, whole, hruns, hrun, (hiff none result whole hrun).mpr ?_⟩
  intro earlier fault later hsplit before hbefore
  cases earlier with
  | nil =>
      cases hsplit
      exact not_cutShort_of_lt (by decide) before
  | cons first rest =>
      have hlength := congrArg List.length hsplit
      simp at hlength

/-- A run that fails when it asks for the first leaf leaves the root alone in the destination, and
the next run takes the tree as present. -/
theorem interrupted_transfer_incomplete :
    (buildWrites manyMap 0).1 = .ok (Blake3.hash manyRoot) ∧
      (∀ chunk ∈ (buildWrites manyMap 0).2, manySource.getChunk chunk.addr = some chunk) ∧
      Set.InjOn Blake3.hash (manySource.contents ∪ ChunkStore.empty.contents) ∧
      ChunkStore.empty.Closed ∧
      ∃ depth, ∀ fuel ≥ depth, ∃ reached result whole,
        transferRuns fuel manySource (Blake3.hash manyRoot) [some (3, .io "TimedOut" "has_chunk")]
          ChunkStore.empty = some reached ∧
        transfer fuel none manySource reached (Blake3.hash manyRoot) = some (.ok result, whole) ∧
        ¬ Transferred fuel manySource whole (Blake3.hash manyRoot) manyMap := by
  have hbuild : (buildWrites manyMap 0).1 = .ok (Blake3.hash manyRoot) :=
    congrArg Prod.fst buildWrites_manyMap
  refine ⟨hbuild, source_manyMap, injOn_manySource, closed_empty, ?_⟩
  obtain ⟨n, tree, -, hheld⟩ := BuiltIn.holds ⟨hbuild, source_manyMap⟩
  refine ⟨n + 1, fun fuel hfuel => ?_⟩
  have hdepth := hheld.withinDepth hfuel
  obtain ⟨reached, hruns⟩ := exists_transferRuns hdepth [some (3, .io "TimedOut" "has_chunk")]
    ChunkStore.empty
  have hroot : manySource.getChunk (Blake3.hash manyRoot) = some (Chunk.fromBytes manyRoot) :=
    @getChunk_manySource (Chunk.fromBytes manyRoot) (by simp [manyChunks])
  have hleaf : manySource.getChunk (Blake3.hash firstLeaf) = some (Chunk.fromBytes firstLeaf) :=
    @getChunk_manySource (Chunk.fromBytes firstLeaf) (by simp [manyChunks])
  have hne : Blake3.hash manyRoot ≠ Blake3.hash firstLeaf := by
    intro h
    have hval := congrArg Subtype.val h
    rw [val_hash_manyRoot, val_hash_firstLeaf] at hval
    exact absurd hval (by decide)
  have habsent : (ChunkStore.empty.putChunk (Chunk.fromBytes manyRoot)).hasChunk
      (Blake3.hash firstLeaf) = false :=
    ChunkStore.hasChunk_putChunk_empty hne
  have hempty : ChunkStore.empty.hasChunk (Blake3.hash manyRoot) = false := rfl
  -- the first run stops when the root is there and its first child is not
  have hcut := cutShort_of_child hdepth hempty hroot
    (decodeChildAddrs_ok (serializeInternalChunk_pair _ _)) habsent hleaf
    (.io "TimedOut" "has_chunk")
  have hstuck := stuck_of_cutShort_runs hdepth (List.nil_append _).symm rfl hcut hruns
  rcases transfer_outcome hdepth none reached with ⟨result, hrun, -⟩ | ⟨left, e, hfault, -⟩
  · have hsame := hstuck.transfer hdepth hrun
    rw [hsame] at hrun
    exact ⟨reached, result, reached, hruns, hrun, hstuck.not_transferred⟩
  · cases hfault

end Sample

end Ferratomic.Prolly
