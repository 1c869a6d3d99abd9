import Oxen.Verification.History.Count

/-! Pages of the commit history: what one call returns, and when the short path
along first parents agrees with the traversal. -/

namespace Oxen

open Exploration Fuel

namespace Commits

variable {db : NodeStore} {refs : Refs} {cache : CountDb} {commit : CommitNode}
  {revision : String} {skip limit : ℕ}

/-! ## One call -/

/-- How `countFrom` fails, whatever is cached. -/
def countError (db : NodeStore) (refs : Refs) (revision : String) : Option RevisionError :=
  match Revisions.get db refs revision with
  | .error e => some e
  | .ok none => some (.revisionNotFound revision)
  | .ok (some _) => none

/-- The commits that a call of `listFromPaginatedImpl` returns. -/
noncomputable def pageOf (db : NodeStore) (refs : Refs) (revision : String) (skip limit : ℕ) :
    Except RevisionError (List CommitNode) :=
  match parseRange revision with
  | some (base, head) =>
      match getById db base, getById db head with
      | none, _ => .error (.revisionNotFound base)
      | some _, none => .error (.revisionNotFound head)
      | some baseCommit, some headCommit =>
          .ok (((fullHistory db (some baseCommit.hash) headCommit).take (skip + limit)).drop skip)
  | none =>
      match Revisions.get db refs revision with
      | .error e => .error e
      | .ok none => .ok []
      | .ok (some commit) =>
          match countError db refs commit.hash.display with
          | some e => .error e
          | none =>
              if skip + limit ≤ 10 then .ok (listForwardPaginated db commit skip limit)
              else .ok (((fullHistory db none commit).take (skip + limit)).drop skip)

theorem countFrom_cases (hk : db.Keyed) (refs : Refs) (cache : CountDb) (revision : String) :
    (∃ e, countError db refs revision = some e ∧
      Returns (fun fuel => countFrom db refs fuel cache revision) (.error e, cache)) ∨
    (countError db refs revision = none ∧ ∃ total cached cache',
      Returns (fun fuel => countFrom db refs fuel cache revision)
        (.ok (total, cached), cache')) := by
  have hcount := countFrom_returns hk refs cache revision
  rcases hget : Revisions.get db refs revision with e | found
  · left
    refine ⟨e, by simp [countError, hget], ?_⟩
    simpa only [countResult, hget] using hcount
  · cases found with
    | none =>
        left
        refine ⟨.revisionNotFound revision, by simp [countError, hget], ?_⟩
        simpa only [countResult, hget] using hcount
    | some commit =>
        right
        refine ⟨by simp [countError, hget], ?_⟩
        simp only [countResult, hget] at hcount
        cases hcached : cache.lookup commit.hash with
        | none =>
            simp only [hcached] at hcount
            exact ⟨_, _, _, hcount⟩
        | some count =>
            simp only [hcached] at hcount
            exact ⟨_, _, _, hcount⟩

theorem getById_display (db : NodeStore) (hash : MerkleHash) :
    getById db hash.display = getByHash db hash := by
  rw [getById, MerkleHash.parse_display, Option.bind_some]

theorem isStored_of_getById (hk : db.Keyed) {commitId : String}
    (h : getById db commitId = some commit) : IsStored db commit := by
  rw [getById] at h
  obtain ⟨hash, -, hget⟩ := Option.bind_eq_some_iff.mp h
  exact isStored_of_getByHash hk hget

/-- A call returns the page, and the total count with it. -/
theorem listFromPaginatedImpl_returns (hk : db.Keyed) (refs : Refs) (cache : CountDb)
    (revision : String) (skip limit : ℕ) :
    ∃ result cache',
      Returns (fun fuel => listFromPaginatedImpl db refs fuel cache revision skip limit)
        (result, cache') ∧
      result.map Prod.fst = pageOf db refs revision skip limit := by
  rw [pageOf]
  cases hrange : parseRange revision with
  | some range =>
      obtain ⟨base, head⟩ := range
      simp only [listFromPaginatedImpl, hrange]
      rcases hbase : getById db base with _ | baseCommit
      · exact ⟨_, _, .pure _, rfl⟩
      · rcases hhead : getById db head with _ | headCommit
        · exact ⟨_, _, .pure _, rfl⟩
        · have hrun := (listRecursivePaginated_returns hk (isStored_of_getById hk hhead)
            skip limit (some baseCommit) none).map
            fun page => ((.ok (page.1, page.2, false), cache) :
              Except RevisionError (List CommitNode × ℕ × Bool) × CountDb)
          exact ⟨_, _, hrun, rfl⟩
  | none =>
      simp only [listFromPaginatedImpl, hrange]
      rcases hget : Revisions.get db refs revision with e | found
      · exact ⟨_, _, .pure _, rfl⟩
      · cases found with
        | none => exact ⟨_, _, .pure _, rfl⟩
        | some commit =>
            rcases countFrom_cases hk refs cache commit.hash.display with
              ⟨e, herror, hcount⟩ | ⟨herror, total, cached, cache', hcount⟩
            · refine ⟨.error e, cache, hcount.of_eq (.pure _) fun fuel hf => ?_, by simp [herror, Except.map]⟩
              simp only [hf]
            · simp only [herror]
              split
              · refine ⟨.ok (listForwardPaginated db commit skip limit, total, cached), cache',
                  hcount.of_eq (.pure _) fun fuel hf => ?_, rfl⟩
                simp only [hf]
              · have hrun := (listRecursivePaginated_returns hk (isStored_of_get hk hget)
                  skip limit none (some total)).map
                  fun page => ((.ok (page.1, total, cached), cache') :
                    Except RevisionError (List CommitNode × ℕ × Bool) × CountDb)
                refine ⟨_, _, hcount.of_eq hrun fun fuel hf => ?_, rfl⟩
                simp only [hf]

/-! ## Along first parents -/

theorem countFrom_mono {refs : Refs} {fuel fuel' : ℕ} {cache : CountDb} {revision : String}
    {r : Except RevisionError (ℕ × Bool) × CountDb}
    (h : countFrom db refs fuel cache revision = some r) (hle : fuel ≤ fuel') :
    countFrom db refs fuel' cache revision = some r := by
  rw [countFrom] at h ⊢
  split at h
  · exact h
  · exact h
  · split at h
    · exact h
    · obtain ⟨page, hpage, rfl⟩ := Option.map_eq_some_iff.mp h
      simp [traverseCommits_mono hpage hle]

theorem listFromPaginatedImpl_mono {refs : Refs} {fuel fuel' : ℕ} {cache : CountDb}
    {revision : String} {skip limit : ℕ}
    {r : Except RevisionError (List CommitNode × ℕ × Bool) × CountDb}
    (h : listFromPaginatedImpl db refs fuel cache revision skip limit = some r)
    (hle : fuel ≤ fuel') :
    listFromPaginatedImpl db refs fuel' cache revision skip limit = some r := by
  rw [listFromPaginatedImpl] at h ⊢
  split at h
  · split at h
    · exact h
    · exact h
    · obtain ⟨page, hpage, rfl⟩ := Option.map_eq_some_iff.mp h
      rw [listRecursivePaginated] at hpage ⊢
      rw [traverseCommits_mono hpage hle]
      rfl
  · split at h
    · exact h
    · exact h
    · split at h
      · cases h
      · next hcount =>
        simp only [countFrom_mono hcount hle]
        exact h
      · next hcount =>
        simp only [countFrom_mono hcount hle]
        split at h
        · next hsmall =>
          rw [if_pos hsmall]
          exact h
        · next hsmall =>
          rw [if_neg hsmall]
          obtain ⟨page, hpage, rfl⟩ := Option.map_eq_some_iff.mp h
          rw [listRecursivePaginated] at hpage ⊢
          rw [traverseCommits_mono hpage hle]
          rfl

theorem listFrom_mono {refs : Refs} {fuel fuel' : ℕ} {cache : CountDb} {revision : String}
    {r : Except RevisionError (List CommitNode) × CountDb}
    (h : listFrom db refs fuel cache revision = some r) (hle : fuel ≤ fuel') :
    listFrom db refs fuel' cache revision = some r := by
  rw [listFrom, Option.map_eq_some_iff] at h ⊢
  obtain ⟨page, hpage, hr⟩ := h
  exact ⟨page, listFromPaginatedImpl_mono hpage hle, hr⟩

/-- The first commits along first parents. -/
def chainFrom (db : NodeStore) : ℕ → Option CommitNode → List CommitNode
  | 0, _ => []
  | _ + 1, none => []
  | n + 1, some commit => commit :: chainFrom db n (firstParent db commit)

def forwardPath (db : NodeStore) (n : ℕ) (head : CommitNode) : List CommitNode :=
  chainFrom db n (some head)

theorem listForwardLoop_eq (n count : ℕ) (current : Option CommitNode)
    (results : List CommitNode) (hn : skip + limit + 1 = count + n) (hcount : count ≤ skip + limit) :
    listForwardLoop db skip (skip + limit) n current count results =
      results ++ (chainFrom db (skip + limit - count) current).drop (skip - count) := by
  induction n generalizing count current results with
  | zero => omega
  | succ n ih =>
      cases current with
      | none => cases skip + limit - count <;> simp [listForwardLoop, chainFrom]
      | some commit =>
          rw [listForwardLoop]
          by_cases hend : skip + limit ≤ count + 1
          · rw [if_pos hend]
            by_cases hlast : count = skip + limit
            · have hwindow : ¬ (skip ≤ count ∧ count < skip + limit) := by omega
              have hzero : skip + limit - count = 0 := by omega
              rw [if_neg hwindow, hzero]
              simp [chainFrom]
            · have hone : skip + limit - count = 1 := by omega
              by_cases hskip : skip ≤ count
              · have hdrop : skip - count = 0 := by omega
                rw [if_pos ⟨hskip, by omega⟩, hone, hdrop]
                simp [chainFrom]
              · have hdrop : skip - count = 1 := by omega
                rw [if_neg (by omega), hone, hdrop]
                simp [chainFrom]
          · rw [if_neg hend, ih _ _ _ (by omega) (by omega)]
            have htake : skip + limit - count = (skip + limit - (count + 1)) + 1 := by omega
            by_cases hskip : skip ≤ count
            · have hdrop : skip - count = 0 ∧ skip - (count + 1) = 0 := by omega
              rw [if_pos ⟨hskip, by omega⟩, htake, chainFrom, hdrop.1, hdrop.2]
              simp
            · have hdrop : skip - count = (skip - (count + 1)) + 1 := by omega
              rw [if_neg (by omega), htake, chainFrom, hdrop]
              simp

theorem listForwardPaginated_eq (db : NodeStore) (head : CommitNode) (skip limit : ℕ) :
    listForwardPaginated db head skip limit = (forwardPath db (skip + limit) head).drop skip := by
  rw [listForwardPaginated, listForwardLoop_eq _ _ _ _ (by omega) (by omega)]
  simp [forwardPath]

theorem isStored_of_firstParent (hk : db.Keyed) {parent : CommitNode}
    (h : firstParent db commit = some parent) : IsStored db parent := by
  rw [firstParent] at h
  obtain ⟨parentId, -, hget⟩ := Option.bind_eq_some_iff.mp h
  exact isStored_of_getByHash hk hget

theorem isStored_of_mem_chainFrom (hk : db.Keyed) {n : ℕ} {current : Option CommitNode}
    (hs : ∀ c, current = some c → IsStored db c) {c : CommitNode}
    (h : c ∈ chainFrom db n current) : IsStored db c := by
  induction n generalizing current with
  | zero => simp [chainFrom] at h
  | succ n ih =>
      cases current with
      | none => simp [chainFrom] at h
      | some commit =>
          rw [chainFrom, List.mem_cons] at h
          rcases h with rfl | h
          · exact hs c rfl
          · exact ih (fun p hp => isStored_of_firstParent hk hp) h

/-- The parents of some commits, without these commits. -/
def openParents (db : NodeStore) (path : List CommitNode) : List CommitNode :=
  (path.flatMap fun commit => commit.parentIds.filterMap (getByHash db)).filter
    (·.hash ∉ path.map (·.hash))

/-- The first parent of the last commit is the newest parent that is still open,
and where it is missing no parent is open. -/
def FirstParentIsNewest (db : NodeStore) (path : List CommitNode) : Prop :=
  ∀ last ∈ path.getLast?,
    match firstParent db last with
    | some parent => parent ∈ openParents db path ∧ ∀ c ∈ openParents db path, rank c ≤ rank parent
    | none => openParents db path = []

theorem isStored_of_mem_openParents (hk : db.Keyed) {path : List CommitNode} {c : CommitNode}
    (h : c ∈ openParents db path) : IsStored db c := by
  obtain ⟨child, -, hc⟩ := List.mem_flatMap.mp (List.mem_of_mem_filter h)
  obtain ⟨parentId, -, hget⟩ := List.mem_filterMap.mp hc
  exact isStored_of_getByHash hk hget

/-- The open parents of visited commits are what a traversal may visit next. -/
theorem fringe_iff_openParents {head id : MerkleHash} {path : List CommitNode}
    (hs : ∀ c ∈ path, IsStored db c) (hhead : head ∈ path.map (·.hash)) :
    Fringe (parentsOf db none) head (path.map (·.hash)).reverse id ↔
      id ∈ (openParents db path).map (·.hash) := by
  have hparents : ∀ c ∈ path,
      parentsOf db none c.hash = (c.parentIds.filterMap (getByHash db)).map (·.hash) := by
    intro c hc
    have hget := hs c hc
    rw [IsStored] at hget
    simp [parentsOf, hget]
  rw [Fringe, openParents, List.mem_reverse]
  constructor
  · rintro ⟨hnew, rfl | ⟨x, hx, hid⟩⟩
    · exact absurd hhead hnew
    · obtain ⟨c, hc, rfl⟩ := List.mem_map.mp (List.mem_reverse.mp hx)
      rw [hparents c hc] at hid
      obtain ⟨parent, hparent, rfl⟩ := List.mem_map.mp hid
      apply List.mem_map_of_mem
      rw [List.mem_filter, List.mem_flatMap]
      exact ⟨⟨c, hc, hparent⟩, by simpa using hnew⟩
  · intro hid
    obtain ⟨parent, hparent, rfl⟩ := List.mem_map.mp hid
    rw [List.mem_filter, List.mem_flatMap] at hparent
    obtain ⟨⟨c, hc, hparent⟩, hnew⟩ := hparent
    refine ⟨of_decide_eq_true hnew, .inr ⟨c.hash, ?_, ?_⟩⟩
    · exact List.mem_reverse.mpr (List.mem_map_of_mem hc)
    · rw [hparents c hc]
      exact List.mem_map_of_mem hparent

theorem eq_of_hash_eq {c d : CommitNode} (hc : IsStored db c) (hd : IsStored db d)
    (h : c.hash = d.hash) : c = d := by
  rw [← hc.commitAt_eq, ← hd.commitAt_eq, h]

theorem chainFrom_none (db : NodeStore) (n : ℕ) : chainFrom db n none = [] := by
  cases n <;> rfl

section NextVisit

variable {head x : MerkleHash} {path : List CommitNode} {last parent : CommitNode}

/-- The commit visited next is the first parent exactly when that is the newest
open parent. -/
theorem next_eq_firstParent_iff (hk : db.Keyed) (hs : ∀ c ∈ path, IsStored db c)
    (hhead : head ∈ path.map (·.hash)) (hlast : path.getLast? = some last)
    (hparent : firstParent db last = some parent)
    (hx : Fringe (parentsOf db none) head (path.map (·.hash)).reverse x)
    (hbest : ∀ y, Fringe (parentsOf db none) head (path.map (·.hash)).reverse y →
      rankOf db y ≤ rankOf db x) :
    x = parent.hash ↔ FirstParentIsNewest db path := by
  have hnewest : FirstParentIsNewest db path ↔ parent ∈ openParents db path ∧
      ∀ c ∈ openParents db path, rank c ≤ rank parent := by
    simp [FirstParentIsNewest, hlast, hparent]
  have hps := isStored_of_firstParent hk hparent
  rw [hnewest]
  rw [fringe_iff_openParents hs hhead] at hx
  obtain ⟨c, hc, rfl⟩ := List.mem_map.mp hx
  have hcs := isStored_of_mem_openParents hk hc
  constructor
  · intro heq
    obtain rfl := eq_of_hash_eq hcs hps heq
    refine ⟨hc, fun d hd => ?_⟩
    have hle := hbest d.hash ((fringe_iff_openParents hs hhead).mpr (List.mem_map_of_mem hd))
    rwa [(isStored_of_mem_openParents hk hd).rank_eq, hcs.rank_eq] at hle
  · rintro ⟨hopen, hle⟩
    have hge := hbest parent.hash
      ((fringe_iff_openParents hs hhead).mpr (List.mem_map_of_mem hopen))
    apply @rankOf_injective db
    apply le_antisymm _ hge
    rw [hcs.rank_eq, hps.rank_eq]
    exact hle c hc

theorem not_firstParentIsNewest_of_done (hs : ∀ c ∈ path, IsStored db c)
    (hhead : head ∈ path.map (·.hash)) (hlast : path.getLast? = some last)
    (hparent : firstParent db last = some parent)
    (hdone : ∀ y, ¬ Fringe (parentsOf db none) head (path.map (·.hash)).reverse y) :
    ¬ FirstParentIsNewest db path := by
  intro h
  have hopen : parent ∈ openParents db path := by
    have := h last (by simp [hlast])
    rw [hparent] at this
    exact this.1
  exact hdone parent.hash ((fringe_iff_openParents hs hhead).mpr (List.mem_map_of_mem hopen))

theorem firstParentIsNewest_iff_of_none (hlast : path.getLast? = some last)
    (hparent : firstParent db last = none) :
    FirstParentIsNewest db path ↔ openParents db path = [] := by
  simp [FirstParentIsNewest, hlast, hparent]

end NextVisit

/-- After a path along first parents, the history goes on along first parents
exactly when each of them is the newest open parent. -/
theorem take_eq_chainFrom_iff (hk : db.Keyed) {head : MerkleHash} {path : List CommitNode}
    {last : CommitNode} {order : List MerkleHash} (hs : ∀ c ∈ path, IsStored db c)
    (hhead : head ∈ path.map (·.hash)) (hlast : path.getLast? = some last)
    (horder : BestFirst (parentsOf db none) (rankOf db) head (path.map (·.hash)).reverse order)
    (n : ℕ) :
    order.take n = (chainFrom db n (firstParent db last)).map (·.hash) ↔
      ∀ i < n, FirstParentIsNewest db (path ++ chainFrom db i (firstParent db last)) := by
  induction n generalizing path last order with
  | zero => simp [chainFrom]
  | succ n ih =>
      cases hparent : firstParent db last with
      | none =>
          simp only [chainFrom_none, List.append_nil, firstParentIsNewest_iff_of_none hlast hparent]
          cases horder with
          | done hdone =>
              have hopen : openParents db path = [] := by
                rw [List.eq_nil_iff_forall_not_mem]
                exact fun c hc =>
                  hdone c.hash ((fringe_iff_openParents hs hhead).mpr (List.mem_map_of_mem hc))
              simp [hopen]
          | visit hx =>
              have hopen : openParents db path ≠ [] := by
                intro hnil
                rw [fringe_iff_openParents hs hhead, hnil] at hx
                simp at hx
              simp only [List.take_succ_cons, List.map_nil, reduceCtorEq, hopen, false_iff, not_forall]
              exact ⟨0, Nat.zero_lt_succ n, not_false⟩
      | some parent =>
          rw [Nat.forall_lt_succ_left]
          simp only [chainFrom, List.append_nil]
          cases horder with
          | done hdone =>
              simp [not_firstParentIsNewest_of_done hs hhead hlast hparent hdone]
          | @visit _ rest x hx hbest hrest =>
              rw [← next_eq_firstParent_iff hk hs hhead hlast hparent hx hbest, List.take_succ_cons,
                List.map_cons, List.cons.injEq]
              apply and_congr_right
              rintro rfl
              have hnext : ∀ c ∈ path ++ [parent], IsStored db c := by
                intro c hc
                rcases List.mem_append.mp hc with hc | hc
                · exact hs c hc
                · rw [List.mem_singleton.mp hc]
                  exact isStored_of_firstParent hk hparent
              rw [ih hnext (by simpa using .inl (by simpa using hhead)) (by simp) (by simpa using hrest)]
              simp

/-! ## When the short path agrees -/

theorem isSome_of_reaches (hk : db.Keyed) (hs : IsStored db commit) {base : Option MerkleHash}
    {id : MerkleHash} (hr : Reaches (parentsOf db base) commit.hash id) :
    (getByHash db id).isSome := by
  rw [IsStored] at hs
  exact isSome_of_reaches_id hk (by rw [hs, Option.isSome_some]) hr

theorem hash_commitAt (hk : db.Keyed) {id : MerkleHash} (h : (getByHash db id).isSome) :
    (commitAt db id).hash = id := by
  obtain ⟨c, hc⟩ := Option.isSome_iff_exists.mp h
  rw [commitAt, hc]
  exact hk id c hc

theorem map_commitAt_eq_iff (hk : db.Keyed) {ids : List MerkleHash} {commits : List CommitNode}
    (hids : ∀ id ∈ ids, (getByHash db id).isSome) (hcommits : ∀ c ∈ commits, IsStored db c) :
    ids.map (commitAt db) = commits ↔ ids = commits.map (·.hash) := by
  constructor
  · rintro rfl
    have hsame : ids.map ((·.hash) ∘ commitAt db) = ids.map id :=
      List.map_congr_left fun x hx => hash_commitAt hk (hids x hx)
    rw [List.map_map, hsame, List.map_id]
  · rintro rfl
    have hsame : commits.map (commitAt db ∘ (·.hash)) = commits.map id :=
      List.map_congr_left fun c hc => (hcommits c hc).commitAt_eq
    rw [List.map_map, hsame, List.map_id]

/-- The history of a commit starts with the commit. -/
theorem history_cons {head : MerkleHash} {order : List MerkleHash} {base : Option MerkleHash}
    (h : History db base head order) :
    ∃ rest, order = head :: rest ∧ BestFirst (parentsOf db base) (rankOf db) head [head] rest := by
  cases h with
  | done hdone => exact absurd ⟨by simp, .inl rfl⟩ (hdone head)
  | @visit _ rest x hx _ hrest =>
      obtain rfl : x = head := by simpa using hx.2
      exact ⟨rest, rfl, hrest⟩

theorem take_history_iff (hk : db.Keyed) (hs : IsStored db commit) (n : ℕ) :
    (fullHistory db none commit).take n = forwardPath db n commit ↔
      ∀ i, 0 < i → i < n → FirstParentIsNewest db (forwardPath db i commit) := by
  cases n with
  | zero => simp [forwardPath, chainFrom]
  | succ n =>
      obtain ⟨rest, horder, hrest⟩ := history_cons (historyOrder_spec db none commit.hash)
      have hchain : ∀ c ∈ chainFrom db n (firstParent db commit), IsStored db c :=
        fun c hc => isStored_of_mem_chainFrom hk (fun p hp => isStored_of_firstParent hk hp) hc
      have hids : ∀ id ∈ rest.take n, (getByHash db id).isSome := by
        intro id hid
        have hmem : id ∈ historyOrder db none commit.hash :=
          horder ▸ List.mem_cons_of_mem _ (List.mem_of_mem_take hid)
        exact isSome_of_reaches hk hs ((historyOrder_spec db none commit.hash).mem_iff.mp hmem)
      have hsteps := @take_eq_chainFrom_iff db hk commit.hash [commit] commit rest
        (by simpa using hs) (by simp) rfl (by simpa using hrest) n
      rw [fullHistory, horder, List.map_cons, hs.commitAt_eq, List.take_succ_cons, forwardPath,
        chainFrom, List.cons.injEq, and_iff_right rfl, ← List.map_take,
        map_commitAt_eq_iff hk hids hchain, hsteps]
      constructor
      · intro h i hpos hi
        obtain ⟨j, rfl⟩ := Nat.exists_eq_add_of_lt hpos
        simpa [forwardPath, chainFrom] using h j (by omega)
      · intro h i hi
        simpa [forwardPath, chainFrom] using h (i + 1) (by omega) (by omega)

namespace HistoryExample

def commitNode (id : MerkleHash) (parents : List MerkleHash) (timestamp : ℕ) : CommitNode where
  hash := id
  parentIds := parents
  timestamp := timestamp

def record (id : MerkleHash) (parents : List MerkleHash) (timestamp : ℕ) : NodeDb where
  node := .commit (commitNode id parents timestamp)

/-- Two branches from one commit. -/
def branched : NodeStore :=
  ((NodeStore.write (fun _ => none) (record 1 [] 1)).write (record 2 [1] 2)).write (record 3 [1] 3)

/-- The older branch with the newer one merged into it. -/
def merged : NodeStore :=
  branched.write (record 4 [2, 3] 4)

def mainRefs : Refs where
  branches := AList.insert "main" "4" ∅

theorem branched_keyed : branched.Keyed := by
  have hempty : NodeStore.Keyed fun _ => none := by
    intro id commit h
    simp [getByHash] at h
  exact Keyed.write (Keyed.write (Keyed.write hempty rfl) rfl) rfl

theorem merged_keyed : merged.Keyed :=
  Keyed.write branched_keyed rfl

end HistoryExample

end Commits

end Oxen
