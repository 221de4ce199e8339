import Ferratomic.Db.BundleVerifies
import Ferratomic.Store.Convergence

/-!
# Federation transport

A peer asks for the transactions that match a filter and gets one bundle for each of them. The
filter is applied to datoms and the bundle is the unit that a signature covers. The main theorem,
`bundles_whole_iff`, says that the bundles hold whole transactions exactly when the filter matches
all or none of the user datoms of each transaction; `bundle_split` is a transaction that is sent in
part.
-/

namespace Ferratomic

open Lib

section Transport

variable [Blake3]

/-- `groups.entry(d.tx()).or_default().push(d)` -/
def pushGroup (groups : OrdMap TxId (List Datom)) (d : Datom) : OrdMap TxId (List Datom) :=
  groups.insert d.tx (groups[d.tx]?.getD [] ++ [d])

/-- One datom of the first pass of `group_into_bundles`: a user datom that matches is collected and
its transaction accepted. -/
def acceptDatom (filter : DatomFilter) (collected : Finset TxId × OrdMap TxId (List Datom))
    (d : Datom) : Finset TxId × OrdMap TxId (List Datom) :=
  if ! isTxMetadata d.attr && filter.matchesDatom d then
    (insert d.tx collected.1, pushGroup collected.2 d)
  else collected

/-- One datom of the second pass: the metadata of accepted transactions is collected. -/
def collectMetadata (accepted : Finset TxId) (groups : OrdMap TxId (List Datom)) (d : Datom) :
    OrdMap TxId (List Datom) :=
  if d.tx ∈ accepted ∧ isTxMetadata d.attr then pushGroup groups d else groups

/-- `group_into_bundles`: the bundles of a snapshot in the order of their identifiers. -/
def groupIntoBundles (snap : Store) (filter : DatomFilter) : List SignedTransactionBundle :=
  let first := snap.datoms.foldl (acceptDatom filter) (∅, ∅)
  let groups := snap.datoms.foldl (collectMetadata first.1) first.2
  groups.toList.map fun group => .fromStoreDatoms group.2 group.1

/-- `LocalTransport::fetch_signed_transactions` -/
def fetchSignedTransactions (db : Database) (filter : DatomFilter) :
    Except FerraError (List SignedTransactionBundle) :=
  .ok (groupIntoBundles db.current filter)

section Groups

omit [Blake3]

/-- A datom is pushed to the group of its transaction. -/
theorem getElem?_pushGroup (groups : OrdMap TxId (List Datom)) (d : Datom) (txId : TxId) :
    (pushGroup groups d)[txId]? =
      if d.tx = txId then some (groups[txId]?.getD [] ++ [d]) else groups[txId]? := by
  rw [pushGroup, OrdMap.getElem?_insert_eq]
  split
  case isTrue h => rw [h]
  case isFalse => rfl

/-- Pushing datoms one by one appends to each group those with its identifier. -/
theorem getElem?_foldl_pushGroup (groups : OrdMap TxId (List Datom)) (datoms : List Datom)
    (txId : TxId) :
    (datoms.foldl pushGroup groups)[txId]? =
      if ∃ d ∈ datoms, d.tx = txId then
        some (groups[txId]?.getD [] ++ datoms.filter fun d => d.tx = txId)
      else groups[txId]? := by
  induction datoms generalizing groups with
  | nil => simp
  | cons d rest ih =>
      rw [List.foldl_cons, ih, getElem?_pushGroup]
      by_cases hd : d.tx = txId
      · simp [hd]
      · simp [hd]

/-- Datoms pushed one after another are appended to a group that is there. -/
theorem getElem?_foldl_pushGroup_some {groups : OrdMap TxId (List Datom)} {txId : TxId}
    {group : List Datom} (h : groups[txId]? = some group) (datoms : List Datom) :
    (datoms.foldl pushGroup groups)[txId]? =
      some (group ++ datoms.filter fun d => d.tx = txId) := by
  rw [getElem?_foldl_pushGroup, h, Option.getD_some]
  split
  case isTrue => rfl
  case isFalse hnone =>
      have hempty : datoms.filter (fun d => d.tx = txId) = [] :=
        List.filter_eq_nil_iff.mpr fun d hd htx => hnone ⟨d, hd, of_decide_eq_true htx⟩
      rw [hempty, List.append_nil]

/-- A user datom that the filter matches. -/
def Sent (filter : DatomFilter) (d : Datom) : Bool :=
  d.isUser && filter.matchesDatom d

/-- The first pass collects what is sent and the transactions it comes from. -/
theorem foldl_acceptDatom (filter : DatomFilter) (datoms : List Datom)
    (collected : Finset TxId × OrdMap TxId (List Datom)) :
    datoms.foldl (acceptDatom filter) collected =
      (collected.1 ∪ ((datoms.filter (Sent filter)).map Datom.tx).toFinset,
        (datoms.filter (Sent filter)).foldl pushGroup collected.2) := by
  induction datoms generalizing collected with
  | nil => simp
  | cons d rest ih =>
      rw [List.foldl_cons, ih, acceptDatom]
      by_cases hd : Sent filter d = true
      · have hsent : (! isTxMetadata d.attr && filter.matchesDatom d) = true := hd
        rw [if_pos hsent, List.filter_cons_of_pos hd]
        simp
      · have hsent : ¬(! isTxMetadata d.attr && filter.matchesDatom d) = true := hd
        rw [if_neg hsent, List.filter_cons_of_neg hd]

/-- The second pass collects the metadata of the accepted transactions. -/
theorem foldl_collectMetadata (accepted : Finset TxId) (datoms : List Datom)
    (groups : OrdMap TxId (List Datom)) :
    datoms.foldl (collectMetadata accepted) groups =
      (datoms.filter fun d => d.tx ∈ accepted ∧ isTxMetadata d.attr).foldl pushGroup groups := by
  rw [List.foldl_filter]
  simp only [decide_eq_true_eq]
  rfl

/-- The user datoms and the metadata pass through the loop separately. -/
theorem bundleLoop_eq (collected : List Datom × MetadataSlots) (datoms : List Datom) :
    bundleLoop collected datoms =
      (collected.1 ++ datoms.filter Datom.isUser,
        (datoms.filter fun d => isTxMetadata d.attr).foldl extractMetadata collected.2) := by
  induction datoms generalizing collected with
  | nil => simp [bundleLoop]
  | cons d rest ih =>
      unfold bundleLoop
      by_cases hmetadata : isTxMetadata d.attr = true
      · have huser : ¬d.isUser = true := by simp [Datom.isUser, hmetadata]
        rw [if_pos hmetadata, ih, List.filter_cons_of_neg huser]
        simp only [List.filter_cons, hmetadata, if_true, List.foldl_cons]
      · have huser : d.isUser = true := by simp [Datom.isUser, hmetadata]
        rw [if_neg hmetadata, ih, List.filter_cons_of_pos huser, List.append_assoc,
          List.singleton_append]
        simp only [List.filter_cons, if_neg hmetadata]

end Groups

section Bundles

variable (snap : Store) (filter : DatomFilter) (txId : TxId)

/-- The group of a transaction: its user datoms that match, then its metadata. -/
def sentGroup : List Datom :=
  (snap.datoms.filter (Sent filter)).filter (fun d => d.tx = txId) ++
    (snap.datoms.filter fun d => isTxMetadata d.attr).filter fun d => d.tx = txId

/-- The groups after both passes. -/
def sentGroups : OrdMap TxId (List Datom) :=
  let first := snap.datoms.foldl (acceptDatom filter) (∅, ∅)
  snap.datoms.foldl (collectMetadata first.1) first.2

/-- A transaction has a group exactly when one of its datoms is sent. -/
theorem getElem?_sentGroups :
    (sentGroups snap filter)[txId]? =
      if ∃ d ∈ snap.datoms.filter (Sent filter), d.tx = txId then
        some (sentGroup snap filter txId)
      else none := by
  rw [sentGroups]
  simp only [foldl_acceptDatom, foldl_collectMetadata, Finset.empty_union]
  have haccepted : txId ∈ ((snap.datoms.filter (Sent filter)).map Datom.tx).toFinset ↔
      ∃ d ∈ snap.datoms.filter (Sent filter), d.tx = txId := by
    rw [List.mem_toFinset, List.mem_map]
  generalize ((snap.datoms.filter (Sent filter)).map Datom.tx).toFinset = accepted at haccepted
  have hfirst : ((snap.datoms.filter (Sent filter)).foldl pushGroup ∅)[txId]? =
      if ∃ d ∈ snap.datoms.filter (Sent filter), d.tx = txId then
        some ((snap.datoms.filter (Sent filter)).filter fun d => d.tx = txId)
      else none := by
    have hnone : (∅ : OrdMap TxId (List Datom))[txId]? = none := by simp
    rw [getElem?_foldl_pushGroup, hnone]
    rfl
  -- the second pass adds metadata to the groups of the first, and opens no group of its own
  by_cases hsent : ∃ d ∈ snap.datoms.filter (Sent filter), d.tx = txId
  · have hmetadata : ((snap.datoms.filter fun d => d.tx ∈ accepted ∧ isTxMetadata d.attr).filter
          fun d => d.tx = txId) =
        (snap.datoms.filter fun d => isTxMetadata d.attr).filter fun d => d.tx = txId := by
      rw [List.filter_filter, List.filter_filter]
      refine List.filter_congr fun d _ => ?_
      by_cases htx : d.tx = txId
      · have hmem : txId ∈ accepted := haccepted.mpr hsent
        simp [hmem, htx]
      · simp [htx]
    rw [if_pos hsent] at hfirst
    rw [if_pos hsent, getElem?_foldl_pushGroup_some hfirst, hmetadata]
    rfl
  · have hother : ∀ d ∈ snap.datoms.filter fun d => d.tx ∈ accepted ∧ isTxMetadata d.attr,
        d.tx ≠ txId := by
      rintro d hd rfl
      exact hsent (haccepted.mp (of_decide_eq_true (List.mem_filter.mp hd).2).1)
    rw [if_neg hsent] at hfirst
    rw [if_neg hsent, getElem?_foldl_pushGroup, hfirst, if_neg]
    rintro ⟨d, hd, htx⟩
    exact hother d hd htx

/-- The bundles are those of the transactions with a user datom that matches. -/
theorem mem_groupIntoBundles {bundle : SignedTransactionBundle} :
    bundle ∈ groupIntoBundles snap filter ↔
      (∃ d ∈ snap.datoms, Sent filter d = true ∧ d.tx = bundle.txId) ∧
        bundle = .fromStoreDatoms (sentGroup snap filter bundle.txId) bundle.txId := by
  show bundle ∈ (sentGroups snap filter).toList.map _ ↔ _
  rw [List.mem_map]
  constructor
  · rintro ⟨⟨txId, group⟩, hgroup, rfl⟩
    rw [OrdMap.mem_toList, getElem?_sentGroups] at hgroup
    split at hgroup
    case isTrue hsent =>
        cases hgroup
        obtain ⟨d, hd, htx⟩ := hsent
        obtain ⟨hmem, hmatches⟩ := List.mem_filter.mp hd
        exact ⟨⟨d, hmem, hmatches, htx⟩, rfl⟩
    case isFalse => cases hgroup
  · rintro ⟨⟨d, hmem, hmatches, htx⟩, hbundle⟩
    refine ⟨(bundle.txId, sentGroup snap filter bundle.txId), ?_, hbundle.symm⟩
    rw [OrdMap.mem_toList, getElem?_sentGroups, if_pos]
    exact ⟨d, List.mem_filter.mpr ⟨hmem, hmatches⟩, htx⟩

variable {filter} in
/-- Every datom that is sent has the bundle of its group. -/
theorem mem_of_sent {d : Datom} (hd : d ∈ snap.datoms) (hsent : Sent filter d = true) :
    SignedTransactionBundle.fromStoreDatoms (sentGroup snap filter d.tx) d.tx ∈
      groupIntoBundles snap filter :=
  (mem_groupIntoBundles snap filter).mpr ⟨⟨d, hd, hsent, rfl⟩, rfl⟩

/-- No two bundles share an identifier. -/
theorem nodup_groupIntoBundles :
    ((groupIntoBundles snap filter).map SignedTransactionBundle.txId).Nodup := by
  show (((sentGroups snap filter).toList.map _).map _).Nodup
  rw [List.map_map]
  refine List.pairwise_map.mpr ((OrdMap.pairwise_keys_toList _).imp fun hlt => ?_)
  exact ne_of_lt hlt

/-- A bundle of a whole transaction: it holds exactly the user datoms that the snapshot has under
its identifier, with the signing pair, the predecessors and the provenance that all datoms of the
transaction give. -/
structure SignedTransactionBundle.Whole (snap : Store) (bundle : SignedTransactionBundle) :
    Prop where
  datoms : bundle.datoms = snap.datoms.filter fun d => d.tx = bundle.txId ∧ d.isUser
  signing : bundle.signing = (snap.bundle bundle.txId).signing
  predecessors : bundle.predecessors = (snap.bundle bundle.txId).predecessors
  provenance : bundle.provenance = (snap.bundle bundle.txId).provenance

/-- The bundle of a group has the datoms sent and the metadata of the transaction. -/
theorem bundleLoop_sentGroup :
    bundleLoop ([], ⟨none, none, none, []⟩) (sentGroup snap filter txId) =
      ((snap.datoms.filter (Sent filter)).filter fun d => d.tx = txId,
        (bundleLoop ([], ⟨none, none, none, []⟩) (snap.datoms.filter fun d => d.tx = txId)).2) := by
  -- no datom is both sent and metadata, so that a filter picks one half of the group
  have huser : (sentGroup snap filter txId).filter Datom.isUser =
      (snap.datoms.filter (Sent filter)).filter fun d => d.tx = txId := by
    rw [sentGroup, List.filter_append]
    have hkept : ∀ d ∈ (snap.datoms.filter (Sent filter)).filter fun d => d.tx = txId,
        d.isUser = true := by
      intro d hd
      have hsent := (List.mem_filter.mp (List.mem_of_mem_filter hd)).2
      exact (Bool.and_eq_true_iff.mp hsent).1
    have hdropped : ∀ d ∈ (snap.datoms.filter fun d => isTxMetadata d.attr).filter
        fun d => d.tx = txId, ¬d.isUser = true := by
      intro d hd
      have hmetadata : isTxMetadata d.attr = true :=
        (List.mem_filter.mp (List.mem_of_mem_filter hd)).2
      simp [Datom.isUser, hmetadata]
    rw [List.filter_eq_self.mpr hkept, List.filter_eq_nil_iff.mpr hdropped, List.append_nil]
  have hmetadata : (sentGroup snap filter txId).filter (fun d => isTxMetadata d.attr) =
      (snap.datoms.filter fun d => d.tx = txId).filter fun d => isTxMetadata d.attr := by
    rw [sentGroup, List.filter_append]
    have hdropped : ∀ d ∈ (snap.datoms.filter (Sent filter)).filter fun d => d.tx = txId,
        ¬isTxMetadata d.attr = true := by
      intro d hd hmetadata
      have hsent := (List.mem_filter.mp (List.mem_of_mem_filter hd)).2
      have huser := (Bool.and_eq_true_iff.mp hsent).1
      rw [Datom.isUser, hmetadata] at huser
      cases huser
    rw [List.filter_eq_nil_iff.mpr hdropped, List.nil_append, List.filter_filter,
      List.filter_filter, List.filter_filter]
    refine List.filter_congr fun d _ => ?_
    cases isTxMetadata d.attr <;> simp
  rw [bundleLoop_eq, bundleLoop_eq, huser, hmetadata]
  rfl

/-- The bundle of a sent transaction lacks the user datoms that the filter does not match, and
nothing else. -/
theorem whole_fromStoreDatoms_iff :
    (SignedTransactionBundle.fromStoreDatoms (sentGroup snap filter txId) txId).Whole snap ↔
      ∀ d ∈ snap.datoms, d.tx = txId → d.isUser = true → filter.matchesDatom d = true := by
  have hdatoms :
      (SignedTransactionBundle.fromStoreDatoms (sentGroup snap filter txId) txId).datoms =
        (snap.datoms.filter (Sent filter)).filter fun d => d.tx = txId := by
    rw [SignedTransactionBundle.fromStoreDatoms, bundleLoop_sentGroup]
  constructor
  · intro h d hd htx huser
    have hwhole : _ = snap.datoms.filter fun d => d.tx = txId ∧ d.isUser :=
      hdatoms.symm.trans h.datoms
    have hmem : d ∈ snap.datoms.filter fun d => d.tx = txId ∧ d.isUser :=
      List.mem_filter.mpr ⟨hd, decide_eq_true ⟨htx, huser⟩⟩
    rw [← hwhole] at hmem
    have hsent := (List.mem_filter.mp (List.mem_of_mem_filter hmem)).2
    exact (Bool.and_eq_true_iff.mp hsent).2
  · intro h
    refine ⟨?_, ?_, ?_, ?_⟩
    · rw [hdatoms, List.filter_filter]
      refine List.filter_congr fun d hd => ?_
      show _ = decide (d.tx = txId ∧ d.isUser = true)
      by_cases hown : d.tx = txId ∧ d.isUser = true
      · simp [Sent, hown.1, hown.2, h d hd hown.1 hown.2]
      · rw [decide_eq_false hown]
        rcases not_and_or.mp hown with htx | huser
        · simp [htx]
        · simp [Sent, huser]
    all_goals
      simp only [SignedTransactionBundle.fromStoreDatoms, Store.bundle, bundleLoop_sentGroup]

/-- The bundles of a peer's request hold whole transactions, each in one bundle, exactly when the
filter matches all or none of the user datoms of every transaction. -/
theorem bundles_whole_iff (db : Database) (filter : DatomFilter) :
    ∃ bundles, fetchSignedTransactions db filter = .ok bundles ∧
      (((∀ bundle ∈ bundles, bundle.Whole db.current) ∧
          (bundles.map SignedTransactionBundle.txId).Nodup) ↔
        ∀ d ∈ db.current.datoms, ∀ other ∈ db.current.datoms, d.isUser = true →
          other.isUser = true → d.tx = other.tx →
          filter.matchesDatom d = filter.matchesDatom other) := by
  refine ⟨_, rfl, ?_⟩
  constructor
  · rintro ⟨hwhole, -⟩ d hd other hother huser huser' htx
    have hmatches {a b : Datom} (ha : a ∈ db.current.datoms) (hb : b ∈ db.current.datoms)
        (hau : a.isUser = true) (hbu : b.isUser = true) (htx : a.tx = b.tx)
        (h : filter.matchesDatom a = true) : filter.matchesDatom b = true := by
      have hbundle := mem_of_sent db.current ha (Bool.and_eq_true_iff.mpr ⟨hau, h⟩)
      exact (whole_fromStoreDatoms_iff ..).mp (hwhole _ hbundle) b hb htx.symm hbu
    rw [Bool.eq_iff_iff]
    exact ⟨hmatches hd hother huser huser' htx, hmatches hother hd huser' huser htx.symm⟩
  · intro h
    refine ⟨fun bundle hbundle => ?_, nodup_groupIntoBundles ..⟩
    obtain ⟨⟨d, hd, hsent, htx⟩, heq⟩ := (mem_groupIntoBundles db.current filter).mp hbundle
    obtain ⟨huser, hmatches⟩ := Bool.and_eq_true_iff.mp hsent
    rw [heq]
    refine (whole_fromStoreDatoms_iff ..).mpr fun other hother hother' huser' => ?_
    rw [← h d hd other hother huser huser' (htx.trans hother'.symm)]
    exact hmatches

end Bundles

end Transport

namespace Sample

/-- A second user datom of the transaction of `asserted`, on another attribute. -/
def named : Datom := ⟨entity, "user/name", .string "x", tx, .assert⟩

/-- A request for the `db/*` attributes. -/
def documentation : DatomFilter := .attributeNamespace ["db/"]

/-- The sample filter sends the documentation and leaves out the name, which is a user datom. -/
theorem sent_samples :
    Sent documentation asserted = true ∧ named.isUser = true ∧
      documentation.matchesDatom named = false := by
  decide +kernel

end Sample

open Sample

/-- One transaction with a datom that the filter matches and one that it does not: the bundle is
sent without the second datom. -/
theorem bundle_split :
    ∃ bundles,
      fetchSignedTransactions (Database.fromStore (Store.fromDatoms {asserted, named}))
          documentation = .ok bundles ∧
        ∃ bundle ∈ bundles, ¬bundle.Whole (Store.fromDatoms {asserted, named}) := by
  have hmem {d : Datom} (hd : d ∈ ({asserted, named} : Finset Datom)) :
      d ∈ (Store.fromDatoms {asserted, named}).datoms := by
    rw [← List.mem_toFinset, Store.toFinset_datoms, Store.datomSet_fromDatoms]
    exact hd
  obtain ⟨hsent, huser, hnot⟩ := sent_samples
  refine ⟨_, rfl, _, mem_of_sent _ (hmem (Finset.mem_insert_self _ _)) hsent, fun hwhole => ?_⟩
  have hmatches := (whole_fromStoreDatoms_iff ..).mp hwhole named
    (hmem (Finset.mem_insert_of_mem (Finset.mem_singleton_self _))) rfl huser
  rw [hnot] at hmatches
  cases hmatches

end Ferratomic
