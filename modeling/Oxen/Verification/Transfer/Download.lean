import Oxen.Verification.History.Pages
import Oxen.Verification.Transfer.Collected

/-! Range downloads: the nodes of which commits the answer has, and when a
client that holds the base can load all of them. -/

namespace Oxen

open Commits Exploration Fuel TreeNodes MerkleTreeNode

variable {db client : NodeStore} {dirHashes : MerkleHash → DirHashes} {fuel : ℕ}
  {base head : CommitNode} {hash : MerkleHash} {archive : Archive} {commits : List CommitNode}

theorem Forest.keyed {trees : List MerkleTreeNode} (h : Forest trees) :
    NodeStore.Keyed (NodeStore.ofTrees trees) :=
  fun _ _ hget => (h.exists_mem hget).1

/-! ## The hashes of several commits -/

/-- Commits whose trees the fuel is enough for. -/
def Loads (db : NodeStore) (dirHashes : MerkleHash → DirHashes) (fuel : ℕ) (commit : CommitNode) :
    Prop :=
  ∃ t : CommitTree db, IsTreeOf dirHashes commit t ∧ t.tree.size ≤ fuel

theorem exists_fuel (h : ∀ c ∈ commits, ∃ t : CommitTree db, IsTreeOf dirHashes c t) :
    ∃ bound, ∀ fuel, bound ≤ fuel → ∀ c ∈ commits, Loads db dirHashes fuel c := by
  induction commits with
  | nil => exact ⟨0, by simp⟩
  | cons commit commits ih =>
      obtain ⟨bound, hbound⟩ := ih fun c hc => h c (List.mem_cons_of_mem _ hc)
      obtain ⟨t, ht⟩ := h commit (List.mem_cons_self ..)
      refine ⟨max bound t.tree.size, fun fuel hf c hc => ?_⟩
      rcases List.mem_cons.mp hc with rfl | hc
      · exact ⟨t, ht, le_trans (le_max_right ..) hf⟩
      · exact hbound fuel (le_trans (le_max_left ..) hf) c hc

/-- The new hashes are the commits and what their trees add to the known nodes. -/
theorem mem_newNodeHashes_iff (hloads : ∀ c ∈ commits, Loads db dirHashes fuel c) (s : Collected)
    (hseen : Closed db s.startingNodeHashes) :
    hash ∈ (commits.foldl (getNodeHashesForCommit db dirHashes fuel) s).newNodeHashes ↔
      hash ∈ s.newNodeHashes ∨ hash ∈ commits.map (·.hash) ∨
        hash ∉ s.startingNodeHashes ∧ ∃ c ∈ commits, hash ∈ DirNodes db c.hash := by
  induction commits generalizing s with
  | nil => simp
  | cons commit commits ih =>
      obtain ⟨t, ht, hsize⟩ := hloads commit (List.mem_cons_self ..)
      have hunique := @mem_collectHashes_iff _ _ hash _ _ _ _ ht hseen hsize
      rw [List.foldl_cons, ih (fun c hc => hloads c (List.mem_cons_of_mem _ hc)) _
        (hseen.collectHashes ht hsize)]
      simp only [getNodeHashesForCommit, List.mem_append, hunique, List.map_cons, List.mem_cons,
        List.not_mem_nil, or_false, exists_eq_or_imp]
      by_cases hdir : hash ∈ DirNodes db commit.hash
      · by_cases hstart : hash ∈ s.startingNodeHashes
        · simp [hdir, hstart, or_assoc]
        · simp [hdir, hstart]
      · simp [hdir, or_assoc]

/-- More fuel than the trees need changes nothing. -/
theorem getNodeHashesBetweenCommits_fuel {bound : ℕ} (hle : bound ≤ fuel)
    (hloads : ∀ c ∈ commits, Loads db dirHashes bound c) :
    getNodeHashesBetweenCommits db dirHashes fuel commits =
      getNodeHashesBetweenCommits db dirHashes bound commits := by
  have hcollect : ∀ c ∈ commits, ∀ seen,
      readDepthFromPathAndCollectHashes db dirHashes fuel c seen =
        readDepthFromPathAndCollectHashes db dirHashes bound c seen := by
    intro c hc seen
    obtain ⟨t, ht, hsize⟩ := hloads c hc
    rw [collectHashes_eq ht hsize, collectHashes_eq ht (le_trans hsize hle)]
  cases commits with
  | nil => rfl
  | cons first newer =>
      have hfold : ∀ s, newer.foldl (getNodeHashesForCommit db dirHashes fuel) s =
          newer.foldl (getNodeHashesForCommit db dirHashes bound) s := by
        intro s
        apply List.foldl_ext
        intro s c hc
        rw [getNodeHashesForCommit, hcollect c (List.mem_cons_of_mem _ hc)]
        rfl
      rw [getNodeHashesBetweenCommits, hcollect first (List.mem_cons_self ..), hfold]
      rfl

/-- What is collected for a range with the given first commit. -/
def RangeHashes (db : NodeStore) (first : MerkleHash) (newer : List MerkleHash) : Set MerkleHash :=
  {h | if newer = [] then h ∈ DirNodes db first
    else h ∈ newer ∨ h ∉ DirNodes db first ∧ ∃ id ∈ newer, h ∈ DirNodes db id}

theorem getNodeHashesBetweenCommits_spec {first : CommitNode} {newer : List CommitNode}
    (hloads : ∀ c ∈ first :: newer, Loads db dirHashes fuel c) :
    ∃ hashes, getNodeHashesBetweenCommits db dirHashes fuel (first :: newer) = .ok hashes ∧
      ∀ hash, hash ∈ hashes ↔ hash ∈ RangeHashes db first.hash (newer.map (·.hash)) := by
  obtain ⟨t, ht, hsize⟩ := hloads first (List.mem_cons_self ..)
  have hnil := Closed.nil db
  have hfirst : ∀ hash, hash ∈ readDepthFromPathAndCollectHashes db dirHashes fuel first [] ↔
      hash ∈ DirNodes db first.hash := by
    intro hash
    rw [mem_collectHashes_iff ht hnil hsize]
    simp
  have hclosed := hnil.collectHashes ht hsize
  rw [List.nil_append] at hclosed
  cases newer with
  | nil => exact ⟨_, rfl, by simpa [RangeHashes] using hfirst⟩
  | cons c newer =>
      refine ⟨_, rfl, fun hash => ?_⟩
      rw [mem_newNodeHashes_iff (fun c hc => hloads c (List.mem_cons_of_mem _ hc)) _ hclosed,
        hfirst]
      simp [RangeHashes]

/-! ## Archives -/

theorem mem_compressNodes {hashes : List MerkleHash} {record : NodeDb}
    (h : (hash, record) ∈ compressNodes db hashes) : db hash = some record := by
  obtain ⟨x, -, hx⟩ := List.mem_filterMap.mp h
  obtain ⟨r, hr, heq⟩ := Option.map_eq_some_iff.mp hx
  obtain ⟨rfl, rfl⟩ := Prod.mk.inj heq
  exact hr

theorem mem_keys_compressNodes {hashes : List MerkleHash} :
    hash ∈ (compressNodes db hashes).map Prod.fst ↔ hash ∈ hashes ∧ (db hash).isSome := by
  constructor
  · intro h
    obtain ⟨⟨x, record⟩, hmem, rfl⟩ := List.mem_map.mp h
    obtain ⟨y, hy, hx⟩ := List.mem_filterMap.mp hmem
    obtain ⟨r, hr, heq⟩ := Option.map_eq_some_iff.mp hx
    obtain ⟨rfl, -⟩ := Prod.mk.inj heq
    exact ⟨hy, by rw [hr, Option.isSome_some]⟩
  · rintro ⟨hmem, hsome⟩
    obtain ⟨record, hrecord⟩ := Option.isSome_iff_exists.mp hsome
    exact List.mem_map.mpr ⟨(hash, record),
      List.mem_filterMap.mpr ⟨hash, hmem, by rw [hrecord, Option.map_some]⟩, rfl⟩

theorem unpackNodes_cons (client : NodeStore) (key : MerkleHash) (record : NodeDb)
    (archive : Archive) :
    unpackNodes client ((key, record) :: archive) =
      unpackNodes (if (client key).isSome then client
        else Function.update client key (some record)) archive :=
  rfl

/-- Unpacking completes what the client holds. -/
theorem unpackNodes_eq (hagrees : ∀ h, (client h).isSome → client h = db h)
    (harchive : ∀ h record, (h, record) ∈ archive → db h = some record)
    (hhas : client hash = db hash ∨ hash ∈ archive.map Prod.fst) :
    unpackNodes client archive hash = db hash := by
  induction archive generalizing client with
  | nil => simpa [unpackNodes] using hhas
  | cons entry archive ih =>
      obtain ⟨key, record⟩ := entry
      have hrecord := harchive key record (List.mem_cons_self ..)
      have htail := fun h r hr => harchive h r (List.mem_cons_of_mem _ hr)
      rw [unpackNodes_cons]
      by_cases hheld : (client key).isSome
      · rw [if_pos hheld]
        refine ih hagrees htail ?_
        rcases hhas with hclient | hkeys
        · exact .inl hclient
        · rcases List.mem_cons.mp hkeys with rfl | hkeys
          · exact .inl (hagrees _ hheld)
          · exact .inr hkeys
      · rw [if_neg hheld]
        have hwritten : ∀ h, Function.update client key (some record) h =
            if h = key then db h else client h := by
          intro h
          by_cases hk : h = key
          · subst hk
            simp [hrecord]
          · simp [hk]
        refine ih (fun h hsome => ?_) htail ?_
        · rw [hwritten] at hsome ⊢
          split at hsome
          · next hk => rw [if_pos hk]
          · next hk => rw [if_neg hk, hagrees h hsome]
        · rw [hwritten]
          split
          · exact .inl rfl
          · next hk => simpa [hk] using hhas

/-! ## The range -/

/-- The ids that the server lists for the range, newest first. -/
noncomputable def listedIds (db : NodeStore) (base head : CommitNode) : List MerkleHash :=
  (historyOrder db (some base.hash) head.hash).take usizeMax

theorem isSome_of_mem_listedIds (hk : db.Keyed) (hhead : IsStored db head) {id : MerkleHash}
    (h : id ∈ listedIds db base head) : (getByHash db id).isSome :=
  isSome_of_reaches hk hhead
    ((historyOrder_spec db (some base.hash) head.hash).mem_iff.mp (List.mem_of_mem_take h))

theorem exists_listedIds (db : NodeStore) (base head : CommitNode) :
    ∃ newer first, listedIds db base head = newer ++ [first] := by
  obtain ⟨rest, horder, -⟩ := history_cons (historyOrder_spec db (some base.hash) head.hash)
  have hne : listedIds db base head ≠ [] := by
    rw [listedIds, horder]
    simp [usizeMax]
  exact ⟨_, _, (List.dropLast_append_getLast hne).symm⟩

theorem getCommitList_returns (hk : db.Keyed) (hhead : IsStored db head) :
    Returns (fun fuel => getCommitList db fuel base head.hash.display)
      (.ok ((listedIds db base head).map (commitAt db)).reverse) := by
  have hrun := (listRecursivePaginated_returns hk hhead 0 usizeMax (some base) none).map
    fun page => (Except.ok page.1.reverse : Except ServerError (List CommitNode))
  have hget : getById db head.hash.display = some head := by rw [getById_display]; exact hhead
  simp only [getCommitList, hget, listBetween, Option.map_map]
  simpa [listedIds, fullHistory, Function.comp_def] using hrun

theorem downloadTreeNodes_returns (hk : db.Keyed) (htrees : HasTrees db dirHashes)
    (hbase : IsStored db base) (hhead : IsStored db head) {newer : List MerkleHash}
    {first : MerkleHash} (hlisted : listedIds db base head = newer ++ [first]) :
    ∃ archive,
      Returns (fun fuel => downloadTreeNodes db dirHashes fuel base.hash.display head.hash.display)
        (.ok archive) ∧
      (∀ h record, (h, record) ∈ archive → db h = some record) ∧
      ∀ hash, hash ∈ archive.map Prod.fst ↔
        hash ∈ RangeHashes db first newer.reverse ∧ (db hash).isSome := by
  have hsome : ∀ id ∈ listedIds db base head, (getByHash db id).isSome :=
    fun id hid => isSome_of_mem_listedIds hk hhead hid
  have htree : ∀ c ∈ ((listedIds db base head).map (commitAt db)).reverse,
      ∃ t : CommitTree db, IsTreeOf dirHashes c t := by
    intro c hc
    obtain ⟨id, hid, rfl⟩ := List.mem_map.mp (List.mem_reverse.mp hc)
    obtain ⟨commit, hcommit⟩ := Option.isSome_iff_exists.mp (hsome id hid)
    rw [commitAt, hcommit]
    exact htrees id commit hcommit
  have hcommits : ((listedIds db base head).map (commitAt db)).reverse =
      commitAt db first :: newer.reverse.map (commitAt db) := by
    rw [hlisted]
    simp
  obtain ⟨bound, hbound⟩ := exists_fuel htree
  rw [hcommits] at hbound
  obtain ⟨hashes, hhashes, hmem⟩ := getNodeHashesBetweenCommits_spec (hbound bound le_rfl)
  have hids : (newer.reverse.map (commitAt db)).map (·.hash) = newer.reverse := by
    rw [List.map_map]
    apply (List.map_congr_left fun id hid => ?_).trans (List.map_id _)
    apply hash_commitAt hk
    apply hsome
    simpa [hlisted] using Or.inl (List.mem_reverse.mp hid)
  have hfirst : (commitAt db first).hash = first :=
    hash_commitAt hk (hsome first (by simp [hlisted]))
  refine ⟨compressNodes db hashes, ?_, fun _ _ h => mem_compressNodes h, fun hash => ?_⟩
  · obtain ⟨n, hn⟩ := @getCommitList_returns _ base _ hk hhead
    refine ⟨max n bound, fun fuel hf => ?_⟩
    have hlist := hn fuel (le_trans (le_max_left ..) hf)
    have hfuel := getNodeHashesBetweenCommits_fuel (le_trans (le_max_right ..) hf)
      (hbound bound le_rfl)
    have hget : getById db base.hash.display = some base := by rw [getById_display]; exact hbase
    simp only [downloadTreeNodes, hget, hlist, Option.map_some, hcommits, hfuel, hhashes]
  · rw [mem_keys_compressNodes, hmem, hids, hfirst]

/-! ## Complete answers -/

/-- All nodes of the commits in a commit's history. -/
def HistoryNodes (db : NodeStore) (id : MerkleHash) : Set MerkleHash :=
  {h | ∃ x, Reaches (parentsOf db none) id x ∧ (h = x ∨ h ∈ DirNodes db x)}

/-- The answer has every new commit and what is new in its tree, so a client that
holds the history of the base has the history of the head after unpacking. -/
def RangeComplete (db : NodeStore) (dirHashes : MerkleHash → DirHashes) (base head : CommitNode) :
    Prop :=
  ∃ archive,
    Returns (fun fuel => downloadTreeNodes db dirHashes fuel base.hash.display head.hash.display)
      (.ok archive) ∧
    (∀ id, Reaches (parentsOf db none) head.hash id → ¬ Reaches (parentsOf db none) base.hash id →
      id ∈ archive.map Prod.fst ∧
        ∀ h ∈ DirNodes db id, h ∈ archive.map Prod.fst ∨ h ∈ HistoryNodes db base.hash) ∧
    ∀ client : NodeStore, (∀ h, (client h).isSome → client h = db h) →
      (∀ h ∈ HistoryNodes db base.hash, client h = db h) →
      ∀ h ∈ HistoryNodes db head.hash, unpackNodes client archive h = db h

/-- The oldest commit of the history of the head above the base, or, while a part
of that history is reached only through it, the oldest commit of this part. -/
def OldestOfRange (db : NodeStore) (base head : CommitNode) (last : MerkleHash) : Prop :=
  LastVisited (parentsOf db (some base.hash)) (rankOf db)
    {id | Reaches (parentsOf db (some base.hash)) head.hash id} head.hash last

/-- The commit that the range ends with is in the history of the base, and so is
every commit beyond the length of the longest list. -/
def EndsInBase (db : NodeStore) (base head : CommitNode) : Prop :=
  (∃ last, OldestOfRange db base head last ∧ Reaches (parentsOf db none) base.hash last) ∧
    ∀ commit ∈ (fullHistory db (some base.hash) head).drop (usizeMax - 1),
      Reaches (parentsOf db none) base.hash commit.hash

theorem reaches_or_reaches {id : MerkleHash} (h : Reaches (parentsOf db none) head.hash id) :
    Reaches (parentsOf db none) base.hash id ∨
      Reaches (parentsOf db (some base.hash)) head.hash id := by
  induction h with
  | refl => exact .inr .refl
  | @tail y z _ hz ih =>
      rcases ih with hy | hy
      · exact .inl (hy.tail hz)
      · by_cases heq : base.hash = y
        · subst heq
          exact .inl (.single hz)
        · refine .inr (hy.tail ?_)
          rw [parentsOf] at hz ⊢
          rw [if_neg (by simp)] at hz
          rwa [if_neg (by simpa using heq)]

theorem reaches_of_reaches {id : MerkleHash}
    (h : Reaches (parentsOf db (some base.hash)) head.hash id) :
    Reaches (parentsOf db none) head.hash id := by
  apply Relation.ReflTransGen.mono _ _ _ h
  intro x y hy
  rw [parentsOf] at hy ⊢
  split at hy
  · cases hy
  · rwa [if_neg (by simp)]

/-- The traversal visits the oldest commit of the range last. -/
theorem oldestOfRange_getLast (db : NodeStore) (base head : CommitNode) :
    ∃ rest last, historyOrder db (some base.hash) head.hash = rest ++ [last] ∧
      OldestOfRange db base head last := by
  have hspec := historyOrder_spec db (some base.hash) head.hash
  obtain ⟨rest, horder, -⟩ := history_cons hspec
  have hset : {id | id ∈ head.hash :: rest} =
      {id | Reaches (parentsOf db (some base.hash)) head.hash id} := by
    ext id
    exact horder ▸ hspec.mem_iff
  rw [horder] at hspec ⊢
  have hlast := hspec.lastVisited rankOf_injective .nil fun y hy => by simpa using hy.2
  rw [hset] at hlast
  exact ⟨_, _, (List.dropLast_append_getLast (by simp)).symm, hlast⟩

theorem mem_drop_fullHistory (hk : db.Keyed) (hhead : IsStored db head) (n : ℕ) {id : MerkleHash} :
    id ∈ ((fullHistory db (some base.hash) head).drop n).map (·.hash) ↔
      id ∈ (historyOrder db (some base.hash) head.hash).drop n := by
  have hids : ((historyOrder db (some base.hash) head.hash).drop n).map
      ((·.hash) ∘ commitAt db) = (historyOrder db (some base.hash) head.hash).drop n := by
    apply (List.map_congr_left fun x hx => ?_).trans (List.map_id _)
    apply hash_commitAt hk
    apply isSome_of_reaches hk hhead
    exact (historyOrder_spec db (some base.hash) head.hash).mem_iff.mp (List.mem_of_mem_drop hx)
  rw [fullHistory, ← List.map_drop, List.map_map, hids]

/-- The base has everything from the first commit of the list on. -/
theorem endsInBase_iff (hk : db.Keyed) (hhead : IsStored db head) {newer : List MerkleHash}
    {first : MerkleHash} (hlisted : listedIds db base head = newer ++ [first]) :
    EndsInBase db base head ↔
      ∀ id ∈ (historyOrder db (some base.hash) head.hash).drop newer.length,
        Reaches (parentsOf db none) base.hash id := by
  obtain ⟨rest, last, horder, hlast⟩ := oldestOfRange_getLast db base head
  have hlength : newer.length + 1 = min usizeMax (rest.length + 1) := by
    have h := congrArg List.length hlisted
    rw [listedIds, horder] at h
    simpa using h.symm
  constructor
  · rintro ⟨⟨last', hlast', hbase⟩, hdrop⟩ id hid
    obtain rfl := LastVisited.unique rankOf_injective hlast hlast'
    by_cases hlong : usizeMax ≤ rest.length + 1
    · have hnewer : newer.length = usizeMax - 1 := by omega
      rw [hnewer, ← mem_drop_fullHistory hk hhead] at hid
      obtain ⟨commit, hcommit, rfl⟩ := List.mem_map.mp hid
      exact hdrop commit hcommit
    · have hnewer : newer.length = rest.length := by omega
      rw [horder, hnewer, List.drop_left, List.mem_singleton] at hid
      exact hid ▸ hbase
  · intro h
    refine ⟨⟨last, hlast, h last ?_⟩, fun commit hcommit => h _ ?_⟩
    · rw [horder, List.drop_append_of_le_length (by omega)]
      exact List.mem_append_right _ (List.mem_singleton_self _)
    · have hmem : commit.hash ∈ (historyOrder db (some base.hash) head.hash).drop (usizeMax - 1) :=
        (mem_drop_fullHistory hk hhead _).mp (List.mem_map_of_mem hcommit)
      exact List.drop_subset_drop_left _ (by omega) hmem

theorem eq_take_of_listedIds {newer : List MerkleHash} {first : MerkleHash}
    (hlisted : listedIds db base head = newer ++ [first]) :
    newer = (historyOrder db (some base.hash) head.hash).take newer.length := by
  have hlength : newer.length ≤ usizeMax := by
    have h := congrArg List.length hlisted
    rw [listedIds, List.length_take, List.length_append] at h
    omega
  have htake := congrArg (List.take newer.length) hlisted
  rw [listedIds, List.take_take, List.take_left, min_eq_left hlength] at htake
  exact htake.symm

theorem isSome_of_getByHash {id : MerkleHash} (h : (getByHash db id).isSome) : (db id).isSome := by
  rw [getByHash] at h
  cases hget : db id with
  | none => simp [hget] at h
  | some record => rfl

theorem endsInBase_of_rangeComplete (hk : db.Keyed) (htrees : HasTrees db dirHashes)
    (hbase : IsStored db base) (hhead : IsStored db head)
    (hcomplete : RangeComplete db dirHashes base head) : EndsInBase db base head := by
  obtain ⟨newer, first, hlisted⟩ := exists_listedIds db base head
  obtain ⟨archive, hreturns, -, hkeys⟩ :=
    downloadTreeNodes_returns hk htrees hbase hhead hlisted
  have hspec := historyOrder_spec db (some base.hash) head.hash
  obtain ⟨archive', hreturns', hnew, -⟩ := hcomplete
  obtain rfl := Except.ok.inj (hreturns.unique hreturns')
  apply (endsInBase_iff hk hhead hlisted).mpr
  intro id hid
  by_contra hnot
  have hreach := reaches_of_reaches (hspec.mem_iff.mp (List.mem_of_mem_drop hid))
  obtain ⟨commit, hcommit⟩ := Option.isSome_iff_exists.mp (isSome_of_reaches hk hhead hreach)
  obtain ⟨t, ht⟩ := htrees id commit hcommit
  have htid : t.id = id := (congrArg CommitNode.hash ht.commit_eq).trans (hk id commit hcommit)
  have hdir : ∀ x, id ∉ DirNodes db x := fun x => htid ▸ id_notMem_dirNodes t x
  -- The commit is not in the list, or the first one of it.
  have hmem := ((hkeys id).mp (hnew id hreach hnot).1).1
  rw [RangeHashes, Set.mem_ofPred_eq] at hmem
  split at hmem
  · exact hdir _ hmem
  · rcases hmem with hmem | ⟨-, x, -, hmem⟩
    · rw [List.mem_reverse, eq_take_of_listedIds hlisted] at hmem
      exact List.disjoint_take_drop hspec.nodup (by simp) hmem hid
    · exact hdir _ hmem

theorem rangeComplete_of_endsInBase (hk : db.Keyed) (htrees : HasTrees db dirHashes)
    (hbase : IsStored db base) (hhead : IsStored db head) (hends : EndsInBase db base head) :
    RangeComplete db dirHashes base head := by
  obtain ⟨newer, first, hlisted⟩ := exists_listedIds db base head
  obtain ⟨archive, hreturns, harchive, hkeys⟩ :=
    downloadTreeNodes_returns hk htrees hbase hhead hlisted
  have hspec := historyOrder_spec db (some base.hash) head.hash
  have hbasehas := (endsInBase_iff hk hhead hlisted).mp hends
  have hnewer := eq_take_of_listedIds hlisted
  have hfirst : Reaches (parentsOf db none) base.hash first := by
    apply hbasehas
    have hlast : (listedIds db base head).drop newer.length = [first] := by
      rw [hlisted, List.drop_left]
    have hmem : first ∈ (listedIds db base head).drop newer.length := by simp [hlast]
    rw [listedIds, List.drop_take] at hmem
    exact List.mem_of_mem_take hmem
  have hpacked : ∀ id, Reaches (parentsOf db none) head.hash id →
      ¬ Reaches (parentsOf db none) base.hash id →
      id ∈ archive.map Prod.fst ∧
        ∀ h ∈ DirNodes db id, h ∈ archive.map Prod.fst ∨ h ∈ HistoryNodes db base.hash := by
    intro id hid hnot
    have hmem : id ∈ newer := by
      have horder := hspec.mem_iff.mpr ((reaches_or_reaches hid).resolve_left hnot)
      rw [← List.take_append_drop newer.length (historyOrder db (some base.hash) head.hash),
        List.mem_append, ← hnewer] at horder
      exact horder.resolve_right fun hdrop => hnot (hbasehas id hdrop)
    have hne : newer.reverse ≠ [] := by
      simpa using List.ne_nil_of_mem hmem
    simp only [hkeys, RangeHashes, Set.mem_ofPred_eq, if_neg hne, List.mem_reverse]
    constructor
    · exact ⟨.inl hmem, isSome_of_getByHash (isSome_of_reaches hk hhead hid)⟩
    · intro h hh
      by_cases hheld : h ∈ DirNodes db first
      · exact .inr ⟨first, hfirst, .inr hheld⟩
      · exact .inl ⟨.inr ⟨hheld, id, hmem, hh⟩, isSome_of_mem_dirNodes hh⟩
  refine ⟨archive, hreturns, hpacked, fun client hagrees hheld h hh => ?_⟩
  apply unpackNodes_eq hagrees harchive
  obtain ⟨x, hx, hh⟩ := hh
  by_cases hbasex : Reaches (parentsOf db none) base.hash x
  · exact .inl (hheld h ⟨x, hbasex, hh⟩)
  · obtain ⟨hid, hdir⟩ := hpacked x hx hbasex
    rcases hh with rfl | hh
    · exact .inr hid
    · rcases hdir h hh with hkey | hhas
      · exact .inr hkey
      · exact .inl (hheld h hhas)

/-- A range download is complete if and only if the range ends in the history of
the base. -/
theorem rangeComplete_iff (hk : db.Keyed) (htrees : HasTrees db dirHashes) (hbase : IsStored db base)
    (hhead : IsStored db head) :
    RangeComplete db dirHashes base head ↔ EndsInBase db base head :=
  ⟨endsInBase_of_rangeComplete hk htrees hbase hhead,
    rangeComplete_of_endsInBase hk htrees hbase hhead⟩

/-! ## A merge above a base with a late clock -/

namespace DownloadExample

open HistoryExample

/-- The commits share one empty root directory. -/
def tree (id : MerkleHash) (parents : List MerkleHash) (timestamp : ℕ) : MerkleTreeNode :=
  .mk (.commit (commitNode id parents timestamp)) [.mk (.directory { name := [], hash := 10 }) []]

/-- Two commits and their merge above a base whose clock is ahead of theirs. -/
def trees : List MerkleTreeNode :=
  [tree 1 [] 9, tree 2 [1] 2, tree 3 [1] 3, tree 4 [2, 3] 4]

def skewed : NodeStore :=
  NodeStore.ofTrees trees

def index (_ : MerkleHash) : DirHashes :=
  AList.insert [] 10 ∅

theorem trees_forest : Forest trees := by
  decide

theorem skewed_keyed : skewed.Keyed :=
  trees_forest.keyed

theorem skewed_hasTrees : HasTrees skewed index :=
  trees_forest.hasTrees (by decide)

theorem base_isStored : IsStored skewed (commitNode 1 [] 9) := by
  rw [IsStored]
  decide

theorem head_isStored : IsStored skewed (commitNode 4 [2, 3] 4) := by
  rw [IsStored]
  decide

theorem parentsOf_skewed (base : Option MerkleHash) (hbase : base = none ∨ base = some 1) :
    parentsOf skewed base 4 = [2, 3] ∧ parentsOf skewed base 3 = [1] ∧
      parentsOf skewed base 2 = [1] ∧ parentsOf skewed base 1 = [] := by
  rcases hbase with rfl | rfl
  · decide
  · decide

theorem mem_of_reaches {id : MerkleHash} (h : Reaches (parentsOf skewed (some 1)) 4 id) :
    id = 4 ∨ id = 3 ∨ id = 2 ∨ id = 1 := by
  obtain ⟨hfour, hthree, htwo, hone⟩ := parentsOf_skewed (some 1) (.inr rfl)
  induction h with
  | refl => exact .inl rfl
  | tail _ hz ih =>
      rcases ih with rfl | rfl | rfl | rfl
      · rw [hfour] at hz
        simp only [List.mem_cons, List.not_mem_nil, or_false] at hz
        tauto
      · rw [hthree, List.mem_singleton] at hz
        exact .inr (.inr (.inr hz))
      · rw [htwo, List.mem_singleton] at hz
        exact .inr (.inr (.inr hz))
      · rw [hone] at hz
        cases hz

/-- The range ends with commit 2. -/
theorem oldestOfRange_two :
    OldestOfRange skewed (commitNode 1 [] 9) (commitNode 4 [2, 3] 4) 2 := by
  have htwo : 2 ∈ parentsOf skewed (some 1) 4 := by decide
  have hthree : 3 ∈ parentsOf skewed (some 1) 4 := by decide
  have hone : 1 ∈ parentsOf skewed (some 1) 3 := by decide
  apply @LastVisited.behind _ _ _ _ _ _ _ 2
  · exact .single htwo
  · decide
  · intro x hx hne
    rcases mem_of_reaches hx with rfl | rfl | rfl | rfl
    · exact absurd rfl hne
    · decide
    · exact le_rfl
    · decide
  · apply LastVisited.root
    rintro x ⟨hx, hnot⟩
    by_contra hne
    have hstep : ReachesWithin (parentsOf skewed (some 1))
        ({id | Reaches (parentsOf skewed (some 1)) 4 id} \ {2}) 4 3 :=
      .single ⟨hthree, .single hthree, by decide⟩
    rcases mem_of_reaches hx with rfl | rfl | rfl | rfl
    · exact hnot .refl
    · exact hnot hstep
    · exact hne rfl
    · exact hnot (hstep.tail ⟨hone, .tail (.single hthree) hone, by decide⟩)

theorem not_endsInBase : ¬ EndsInBase skewed (commitNode 1 [] 9) (commitNode 4 [2, 3] 4) := by
  rintro ⟨⟨last, hlast, hbase⟩, -⟩
  obtain rfl := LastVisited.unique rankOf_injective hlast oldestOfRange_two
  rcases Relation.ReflTransGen.cases_head hbase with h | ⟨x, hx, -⟩
  · exact absurd h (by decide)
  · obtain ⟨-, -, -, hone⟩ := parentsOf_skewed none (.inl rfl)
    have hx' : x ∈ parentsOf skewed none 1 := hx
    rw [hone] at hx'
    cases hx'

end DownloadExample

theorem rangeComplete_iff_example :
    RangeComplete DownloadExample.skewed DownloadExample.index (HistoryExample.commitNode 1 [] 9)
        (HistoryExample.commitNode 4 [2, 3] 4) ↔
      EndsInBase DownloadExample.skewed (HistoryExample.commitNode 1 [] 9)
        (HistoryExample.commitNode 4 [2, 3] 4) :=
  rangeComplete_iff DownloadExample.skewed_keyed DownloadExample.skewed_hasTrees
    DownloadExample.base_isStored DownloadExample.head_isStored

/-- The range ends with commit 2, which is new and which no answer contains. -/
theorem not_rangeComplete :
    ¬ ∀ (db : NodeStore) (dirHashes : MerkleHash → DirHashes) (base head : CommitNode),
      db.Keyed → HasTrees db dirHashes → IsStored db base → IsStored db head →
        RangeComplete db dirHashes base head := by
  intro h
  apply DownloadExample.not_endsInBase
  exact endsInBase_of_rangeComplete DownloadExample.skewed_keyed DownloadExample.skewed_hasTrees
    DownloadExample.base_isStored DownloadExample.head_isStored
    (h _ _ _ _ DownloadExample.skewed_keyed DownloadExample.skewed_hasTrees
      DownloadExample.base_isStored DownloadExample.head_isStored)

end Oxen
