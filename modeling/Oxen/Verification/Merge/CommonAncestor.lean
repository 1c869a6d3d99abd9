import Oxen.Lib.Distance
import Oxen.Verification.Server.Pushes

/-! The common ancestor that is nearest to the base commit, and when it is a
lowest one. -/

namespace Oxen

open Commits Distance Exploration Fuel

/-- No commit is a proper ancestor of itself. -/
def NodeStore.Acyclic (db : NodeStore) : Prop :=
  ∀ id, ¬ Relation.TransGen (fun x y => y ∈ parentsOf db none x) id id

variable {db : NodeStore} {refs : Refs} {commit base merge : CommitNode} {root x : MerkleHash}

/-! ## Histories with depths -/

namespace Commits

theorem map_hash_parents (hs : IsStored db commit) :
    (commit.parentIds.filterMap (getByHash db)).map (·.hash) = parentsOf db none commit.hash := by
  rw [IsStored] at hs
  simp [parentsOf, hs]

/-- The depth a commit was last visited at. -/
def depthOf (results : KeyedMap.Map MerkleHash ℕ) (id : MerkleHash) : Option ℕ :=
  results.lookup id

theorem depthOf_insert (results : KeyedMap.Map MerkleHash ℕ) (id : MerkleHash) (depth : ℕ) :
    depthOf (results.insert id depth) = Function.update (depthOf results) id (some depth) := by
  funext x
  by_cases h : x = id
  · subst h
    rw [depthOf, AList.lookup_insert, Function.update_self]
  · rw [depthOf, AList.lookup_insert_ne h, Function.update_of_ne h]
    rfl

section Listing

/-- The traversal ends with the distance of every commit in the history. -/
theorem listRecursiveWithDepth_returns (hk : db.Keyed) {bound : ℕ}
    (hbound : ∀ x n, Walk (parentsOf db none) root x n → n ≤ bound)
    {stack : List (CommitNode × ℕ)} {results : KeyedMap.Map MerkleHash ℕ}
    (hl : Labelled (parentsOf db none) root (stack.map fun item => (item.1.hash, item.2))
      (depthOf results))
    (hstack : ∀ item ∈ stack, IsStored db item.1) :
    ∃ r : KeyedMap.Map MerkleHash ℕ,
      (∀ x d, depthOf r x = some d ↔ IsDistance (parentsOf db none) root x d) ∧
      Returns (fun fuel => listRecursiveWithDepth db fuel stack results) r := by
  induction hn : Distance.remaining (parentsOf db none) bound
      (stack.map fun item => (item.1.hash, item.2)) (depthOf results)
    using Nat.strongRecOn generalizing stack results with
  | ind n ih =>
      subst hn
      match stack with
      | [] =>
          refine ⟨results, fun x d => hl.label_iff, 1, fun fuel hf => ?_⟩
          obtain ⟨fuel, rfl⟩ := Nat.exists_eq_add_of_le' hf
          rfl
      | (commit, depth) :: stack =>
          rw [List.map_cons] at hl ih
          by_cases hseen : (results.lookup commit.hash).any (· ≤ depth) = true
          · have hlabel : ∃ e ≤ depth, depthOf results commit.hash = some e := by
              obtain ⟨e, hlookup, he⟩ := (Option.any_eq_true _ _).mp hseen
              exact ⟨e, by simpa using he, hlookup⟩
            obtain ⟨r, hspec, m, hm⟩ := ih _ (by rw [Distance.remaining_skip]; omega) (hl.skip hlabel)
              (fun item hi => hstack item (List.mem_cons_of_mem _ hi)) rfl
            refine ⟨r, hspec, m + 1, fun fuel hf => ?_⟩
            obtain ⟨fuel, rfl⟩ := Nat.exists_eq_add_of_le' (le_trans (Nat.le_add_left 1 m) hf)
            simp only [listRecursiveWithDepth, hseen, if_true]
            exact hm fuel (by omega)
          · have hs : IsStored db commit := hstack _ (List.mem_cons_self ..)
            have hlonger : ∀ e, depthOf results commit.hash = some e → depth < e := by
              intro e he
              simpa [show results.lookup commit.hash = some e from he] using hseen
            have hparents := map_hash_parents hs
            have hpushed : ∀ item : MerkleHash × ℕ,
                item ∈ ((((commit.parentIds.filterMap (getByHash db)).map
                    (·, depth + 1)).reverse ++ stack).map fun item => (item.1.hash, item.2)) ↔
                  (item.1 ∈ parentsOf db none commit.hash ∧ item.2 = depth + 1) ∨
                    item ∈ stack.map fun item => (item.1.hash, item.2) := by
              rintro ⟨id, d⟩
              rw [← hparents]
              simp only [List.map_append, List.mem_append, List.map_reverse, List.mem_reverse,
                List.map_map, List.mem_map, Function.comp_apply, Prod.mk.injEq]
              constructor
              · rintro (⟨c, hc, rfl, rfl⟩ | h)
                · exact .inl ⟨⟨c, hc, rfl⟩, rfl⟩
                · exact .inr h
              · rintro (⟨⟨c, hc, rfl⟩, rfl⟩ | h)
                · exact .inl ⟨c, hc, rfl, rfl⟩
                · exact .inr h
            have hvisit := hl.visit hlonger hpushed
            have hwalk := hl.stacked _ _ (List.mem_cons_self ..)
            have hlen : ((((commit.parentIds.filterMap (getByHash db)).map
                (·, depth + 1)).reverse ++ stack).map fun item => (item.1.hash, item.2)).length =
                  (parentsOf db none commit.hash).length +
                    (stack.map fun item => (item.1.hash, item.2)).length := by
              rw [← hparents]
              simp
            have hdecrease := Distance.remaining_visit (hbound _ _ hwalk) hlonger hlen
            rw [← depthOf_insert] at hvisit hdecrease
            obtain ⟨r, hspec, m, hm⟩ := ih _ hdecrease hvisit (by
              intro item hi
              rcases List.mem_append.mp hi with hi | hi
              · obtain ⟨c, hc, rfl⟩ := List.mem_map.mp (List.mem_reverse.mp hi)
                obtain ⟨id, -, hget⟩ := List.mem_filterMap.mp hc
                exact isStored_of_getByHash hk hget
              · exact hstack item (List.mem_cons_of_mem _ hi)) rfl
            refine ⟨r, hspec, m + 1, fun fuel hf => ?_⟩
            obtain ⟨fuel, rfl⟩ := Nat.exists_eq_add_of_le' (le_trans (Nat.le_add_left 1 m) hf)
            simp only [listRecursiveWithDepth, hseen]
            exact hm fuel (by omega)

theorem listFromWithDepth_returns (hk : db.Keyed) (ha : db.Acyclic) {revision : String}
    (hr : Revisions.get db refs revision = .ok (some commit)) :
    ∃ depths : KeyedMap.Map MerkleHash ℕ,
      (∀ x d, depthOf depths x = some d ↔ IsDistance (parentsOf db none) commit.hash x d) ∧
      Returns (fun fuel => listFromWithDepth db refs fuel revision) (.ok depths) := by
  obtain ⟨bound, hbound⟩ := exists_bound (wellFounded_of_acyclic ha) commit.hash
  obtain ⟨depths, hspec, hreturns⟩ := @listRecursiveWithDepth_returns db commit.hash hk bound hbound
    [(commit, 0)] ∅ .start (fun item hi => by
      obtain rfl := List.mem_singleton.mp hi
      exact isStored_of_get hk hr)
  refine ⟨depths, hspec, ?_⟩
  simp only [listFromWithDepth, hr]
  exact hreturns.map Except.ok

end Listing

end Commits

/-! ## The nearest common ancestor -/

namespace Merge

section Closest

variable {baseDepths : KeyedMap.Map MerkleHash ℕ} {commits : List MerkleHash} {id : MerkleHash}
  {depth : ℕ}

theorem closest_concat (baseDepths : KeyedMap.Map MerkleHash ℕ) (commits : List MerkleHash)
    (id : MerkleHash) :
    closest baseDepths (commits ++ [id]) =
      match baseDepths.lookup id, closest baseDepths commits with
      | some depth, some (lca, minDepth) =>
          if depth < minDepth then some (id, depth) else some (lca, minDepth)
      | some depth, none => some (id, depth)
      | none, lca => lca := by
  rw [closest, List.foldl_concat]
  rw [← closest.eq_def]
  cases baseDepths.lookup id with
  | none => rfl
  | some depth => cases closest baseDepths commits <;> rfl

theorem closest_eq_none_iff :
    closest baseDepths commits = none ↔ ∀ x ∈ commits, baseDepths.lookup x = none := by
  induction commits using List.reverseRecOn with
  | nil => simp [closest]
  | append_singleton commits id ih =>
      rw [closest_concat]
      cases hl : baseDepths.lookup id with
      | none => simp [ih, hl, or_imp, forall_and]
      | some depth =>
          have hnot : ¬ ∀ x ∈ commits ++ [id], baseDepths.lookup x = none := by
            intro h
            simpa [hl] using h id (by simp)
          cases closest baseDepths commits with
          | none => simpa using hnot
          | some best =>
              refine iff_of_false ?_ hnot
              dsimp only
              split <;> simp

/-- The result is an early candidate of the least depth. -/
theorem closest_eq_some (h : closest baseDepths commits = some (id, depth)) :
    id ∈ commits ∧ baseDepths.lookup id = some depth ∧
      ∀ x ∈ commits, ∀ d, baseDepths.lookup x = some d → depth ≤ d := by
  induction commits using List.reverseRecOn generalizing id depth with
  | nil => simp [closest] at h
  | append_singleton commits new ih =>
      rw [closest_concat] at h
      cases hl : baseDepths.lookup new with
      | none =>
          rw [hl] at h
          obtain ⟨hmem, hlookup, hmin⟩ := ih h
          refine ⟨List.mem_append_left _ hmem, hlookup, fun x hx d hd => ?_⟩
          rcases List.mem_append.mp hx with hx | hx
          · exact hmin x hx d hd
          · rw [List.mem_singleton.mp hx, hl] at hd
            cases hd
      | some newDepth =>
          rw [hl] at h
          cases hc : closest baseDepths commits with
          | none =>
              rw [hc] at h
              obtain ⟨rfl, rfl⟩ := Prod.mk.inj (Option.some.inj h)
              refine ⟨by simp, hl, fun x hx d hd => ?_⟩
              rcases List.mem_append.mp hx with hx | hx
              · rw [closest_eq_none_iff.mp hc x hx] at hd
                cases hd
              · rw [List.mem_singleton.mp hx, hl] at hd
                exact le_of_eq (Option.some.inj hd)
          | some best =>
              obtain ⟨lca, minDepth⟩ := best
              rw [hc] at h
              obtain ⟨hmem, hlookup, hmin⟩ := ih hc
              by_cases hlt : newDepth < minDepth
              · simp only [hlt, if_true] at h
                obtain ⟨rfl, rfl⟩ := Prod.mk.inj (Option.some.inj h)
                refine ⟨by simp, hl, fun x hx d hd => ?_⟩
                rcases List.mem_append.mp hx with hx | hx
                · exact le_of_lt (lt_of_lt_of_le hlt (hmin x hx d hd))
                · rw [List.mem_singleton.mp hx, hl] at hd
                  exact le_of_eq (Option.some.inj hd)
              · simp only [hlt, if_false] at h
                obtain ⟨rfl, rfl⟩ := Prod.mk.inj (Option.some.inj h)
                refine ⟨List.mem_append_left _ hmem, hlookup, fun x hx d hd => ?_⟩
                rcases List.mem_append.mp hx with hx | hx
                · exact hmin x hx d hd
                · rw [List.mem_singleton.mp hx, hl] at hd
                  obtain rfl := Option.some.inj hd
                  omega

/-- A candidate of the least depth is the result when it comes first. -/
theorem closest_cons_of_least (hl : baseDepths.lookup id = some depth)
    (hmin : ∀ x ∈ commits, ∀ d, baseDepths.lookup x = some d → depth ≤ d) :
    closest baseDepths (id :: commits) = some (id, depth) := by
  induction commits using List.reverseRecOn with
  | nil => simp [closest, hl]
  | append_singleton commits new ih =>
      rw [← List.cons_append, closest_concat,
        ih fun x hx => hmin x (List.mem_append_left _ hx)]
      cases hnew : baseDepths.lookup new with
      | none => rfl
      | some newDepth =>
          have := hmin new (by simp) newDepth hnew
          simp only [show ¬ newDepth < depth by omega, if_false]

end Closest

/-- An order of iteration that yields one key first. -/
def startWith (id : MerkleHash) (ids : List MerkleHash) : List MerkleHash :=
  if id ∈ ids then id :: ids.erase id else ids

theorem perm_startWith (id : MerkleHash) (ids : List MerkleHash) : (startWith id ids).Perm ids := by
  by_cases hin : id ∈ ids
  · rw [startWith, if_pos hin]
    exact (List.perm_cons_erase hin).symm
  · rw [startWith, if_neg hin]

/-- The commit that the id of a commit names, which a branch of that name decides. -/
def Named (db : NodeStore) (refs : Refs) (commit named : CommitNode) : Prop :=
  Revisions.get db refs commit.hash.display = .ok (some named)

/-- The commits that both traversals list. -/
def ListedByBoth (db : NodeStore) (refs : Refs) (root : MerkleHash) (merge : CommitNode)
    (id : MerkleHash) : Prop :=
  Reaches (parentsOf db none) root id ∧
    ∃ named, Named db refs merge named ∧ Reaches (parentsOf db none) named.hash id

theorem exists_mergeDepths (hk : db.Keyed) (ha : db.Acyclic) (refs : Refs) (commit : CommitNode) :
    ∃ depths : KeyedMap.Map MerkleHash ℕ,
      (∀ id, id ∈ depths.keys ↔
        ∃ named, Named db refs commit named ∧ Reaches (parentsOf db none) named.hash id) ∧
      Returns (fun fuel => listFromWithDepth db refs fuel commit.hash.display) (.ok depths) := by
  have hget : Revisions.get db refs commit.hash.display =
      .ok (getById db ((refs.branches.lookup commit.hash.display).getD commit.hash.display)) := by
    rw [Revisions.get, if_neg (display_ne_head commit.hash)]
  cases hn : getById db ((refs.branches.lookup commit.hash.display).getD commit.hash.display) with
  | none =>
      rw [hn] at hget
      refine ⟨∅, fun id => ?_, ?_⟩
      · simp [Named, hget]
      · simp only [listFromWithDepth, hget]
        exact .pure _
  | some named =>
      rw [hn] at hget
      obtain ⟨depths, hspec, hreturns⟩ := listFromWithDepth_returns hk ha hget
      refine ⟨depths, fun id => ?_, hreturns⟩
      have hnamed : (∃ c, Named db refs commit c ∧ Reaches (parentsOf db none) c.hash id) ↔
          Reaches (parentsOf db none) named.hash id := by
        simp [Named, hget]
      rw [hnamed, ← AList.mem_keys, ← AList.lookup_isSome]
      constructor
      · intro h
        obtain ⟨d, hd⟩ := Option.isSome_iff_exists.mp h
        exact ((hspec id d).mp hd).1.reaches
      · intro h
        obtain ⟨d, hd⟩ := exists_distance h
        rw [show depths.lookup id = some d from (hspec id d).mpr hd]
        rfl

/-- The result of the search is a listed commit that no other is nearer than, and
each of these is the result for some order of iteration. -/
theorem lowestCommonAncestorFromCommits_spec (hk : db.Keyed) (ha : db.Acyclic) {root : CommitNode}
    (hbase : Named db refs base root) :
    (∀ iter : List MerkleHash → List MerkleHash, (∀ ids, (iter ids).Perm ids) → ∃ result,
      Returns (fun fuel => lowestCommonAncestorFromCommits iter db refs fuel base merge)
        (.ok result) ∧
      (result = none → ∀ id, ¬ ListedByBoth db refs root.hash merge id) ∧
      ∀ id, result = some id → ListedByBoth db refs root.hash merge id ∧
        ∀ other, ListedByBoth db refs root.hash merge other →
          ¬ Nearer (parentsOf db none) root.hash other id) ∧
    ∀ id, ListedByBoth db refs root.hash merge id →
      (∀ other, ListedByBoth db refs root.hash merge other →
        ¬ Nearer (parentsOf db none) root.hash other id) →
      ∃ iter : List MerkleHash → List MerkleHash, (∀ ids, (iter ids).Perm ids) ∧
        Returns (fun fuel => lowestCommonAncestorFromCommits iter db refs fuel base merge)
          (.ok (some id)) := by
  obtain ⟨baseDepths, hspec, hbaseReturns⟩ := listFromWithDepth_returns hk ha hbase
  obtain ⟨mergeDepths, hkeys, hmergeReturns⟩ := exists_mergeDepths hk ha refs merge
  have hne : baseDepths ≠ ∅ := by
    rintro rfl
    have := (hspec root.hash 0).mpr ⟨.root, fun n _ => Nat.zero_le n⟩
    simp [depthOf] at this
  have hrun : ∀ iter : List MerkleHash → List MerkleHash,
      Returns (fun fuel => lowestCommonAncestorFromCommits iter db refs fuel base merge)
        (.ok ((closest baseDepths (iter mergeDepths.keys)).map Prod.fst)) := by
    intro iter
    obtain ⟨m, hm⟩ := hbaseReturns
    obtain ⟨n, hn⟩ := hmergeReturns
    refine ⟨max m n, fun fuel hf => ?_⟩
    simp only [lowestCommonAncestorFromCommits, hm fuel (le_trans (le_max_left m n) hf),
      hn fuel (le_trans (le_max_right m n) hf), hne, if_false]
  have hlisted : ∀ id, ListedByBoth db refs root.hash merge id ↔
      id ∈ mergeDepths.keys ∧ ∃ d, depthOf baseDepths id = some d := by
    intro id
    rw [ListedByBoth, hkeys, and_comm]
    refine and_congr_right fun _ => ⟨fun h => ?_, ?_⟩
    · obtain ⟨d, hd⟩ := exists_distance h
      exact ⟨d, (hspec id d).mpr hd⟩
    · rintro ⟨d, hd⟩
      exact ((hspec id d).mp hd).1.reaches
  refine ⟨fun iter hiter => ⟨_, hrun iter, fun hnone id hid => ?_, fun id hid => ?_⟩,
    fun id hid hleast => ?_⟩
  · obtain ⟨hmem, d, hd⟩ := (hlisted id).mp hid
    rw [Option.map_eq_none_iff, closest_eq_none_iff] at hnone
    rw [depthOf, hnone id ((hiter _).mem_iff.mpr hmem)] at hd
    cases hd
  · obtain ⟨⟨id', d⟩, hclosest, rfl⟩ := Option.map_eq_some_iff.mp hid
    obtain ⟨hmem, hlookup, hmin⟩ := closest_eq_some hclosest
    refine ⟨(hlisted id').mpr ⟨(hiter _).mem_iff.mp hmem, d, hlookup⟩, fun other ho hnear => ?_⟩
    obtain ⟨homem, e, he⟩ := (hlisted other).mp ho
    have hle := hmin other ((hiter _).mem_iff.mpr homem) e he
    have hlt := (nearer_iff ((hspec other e).mp he) ((hspec id' d).mp hlookup)).mp hnear
    omega
  · obtain ⟨hmem, d, hd⟩ := (hlisted id).mp hid
    refine ⟨startWith id, perm_startWith id, ?_⟩
    have hfirst : closest baseDepths (startWith id mergeDepths.keys) = some (id, d) := by
      rw [startWith, if_pos hmem]
      apply closest_cons_of_least hd
      intro x hx e he
      have hnot := hleast x ((hlisted x).mpr ⟨List.mem_of_mem_erase hx, e, he⟩)
      rw [nearer_iff ((hspec x e).mp he) ((hspec id d).mp hd)] at hnot
      omega
    have hreturns := hrun (startWith id)
    rw [hfirst] at hreturns
    exact hreturns

/-! ## Ties -/

/-- The search ends the same way in every order of iteration. -/
def SameInEveryOrder (db : NodeStore) (refs : Refs) (base merge : CommitNode) : Prop :=
  ∃ result, ∀ iter : List MerkleHash → List MerkleHash, (∀ ids, (iter ids).Perm ids) →
    Returns (fun fuel => lowestCommonAncestorFromCommits iter db refs fuel base merge) result

/-- A listed commit that no other is nearer than. -/
def Nearest (db : NodeStore) (refs : Refs) (root : MerkleHash) (merge : CommitNode)
    (id : MerkleHash) : Prop :=
  ListedByBoth db refs root merge id ∧ ∀ other, ListedByBoth db refs root merge other →
    ¬ Nearer (parentsOf db none) root other id

/-- The order does not matter exactly when no two commits are nearest. -/
theorem sameInEveryOrder_iff (hk : db.Keyed) (ha : db.Acyclic) :
    SameInEveryOrder db refs base merge ↔
      ∀ root, Named db refs base root → ∀ x y, Nearest db refs root.hash merge x →
        Nearest db refs root.hash merge y → x = y := by
  constructor
  · rintro ⟨result, hresult⟩ root hroot x y hx hy
    obtain ⟨-, hsome⟩ := @lowestCommonAncestorFromCommits_spec db refs base merge hk ha root hroot
    obtain ⟨iterX, hpermX, hreturnsX⟩ := hsome x hx.1 hx.2
    obtain ⟨iterY, hpermY, hreturnsY⟩ := hsome y hy.1 hy.2
    have heqX := (hresult iterX hpermX).unique hreturnsX
    have heqY := (hresult iterY hpermY).unique hreturnsY
    exact Option.some.inj (Except.ok.inj (heqX.symm.trans heqY))
  · intro hunique
    cases hbase : getById db ((refs.branches.lookup base.hash.display).getD base.hash.display) with
    | none =>
        -- Nothing is listed for the base, and its first commit is unwrapped.
        obtain ⟨depths, -, hmerge⟩ := exists_mergeDepths hk ha refs merge
        refine ⟨.error .noHistory, fun iter _ => ?_⟩
        obtain ⟨n, hn⟩ := hmerge
        refine ⟨n, fun fuel hfuel => ?_⟩
        have hlist : listFromWithDepth db refs fuel base.hash.display = some (.ok ∅) := by
          rw [listFromWithDepth, Revisions.get, if_neg (display_ne_head base.hash), hbase]
        simp only [lowestCommonAncestorFromCommits, hlist, hn fuel hfuel, if_true]
    | some root =>
        have hroot : Named db refs base root := by
          rw [Named, Revisions.get, if_neg (display_ne_head base.hash), hbase]
        obtain ⟨hall, -⟩ := @lowestCommonAncestorFromCommits_spec db refs base merge hk ha root hroot
        obtain ⟨result, -, hnone, hlisted⟩ := hall id fun ids => .refl ids
        refine ⟨.ok result, fun iter hiter => ?_⟩
        obtain ⟨result', hreturns, hnone', hlisted'⟩ := hall iter hiter
        suffices heq : result' = result from heq ▸ hreturns
        cases result with
        | none =>
            cases result' with
            | none => rfl
            | some y => exact absurd (hlisted' y rfl).1 (hnone rfl y)
        | some x =>
            cases result' with
            | none => exact absurd (hlisted x rfl).1 (hnone' rfl x)
            | some y => rw [hunique root hroot x y (hlisted x rfl) (hlisted' y rfl)]

/-! ## Lowest common ancestors -/

/-- The commit is in both histories. -/
def CommonAncestor (db : NodeStore) (base merge : CommitNode) (id : MerkleHash) : Prop :=
  Reaches (parentsOf db none) base.hash id ∧ Reaches (parentsOf db none) merge.hash id

/-- A common ancestor that no other common ancestor descends from. -/
def LowestCommonAncestor (db : NodeStore) (base merge : CommitNode) (id : MerkleHash) : Prop :=
  CommonAncestor db base merge id ∧ ∀ other, CommonAncestor db base merge other →
    ¬ Relation.TransGen (fun x y => y ∈ parentsOf db none x) other id

/-- In every order of iteration the search returns a lowest common ancestor, or
nothing when the histories are disjoint. -/
def FindsLowest (db : NodeStore) (refs : Refs) (base merge : CommitNode) : Prop :=
  ∀ iter : List MerkleHash → List MerkleHash, (∀ ids, (iter ids).Perm ids) → ∃ result,
    Returns (fun fuel => lowestCommonAncestorFromCommits iter db refs fuel base merge)
      (.ok result) ∧
    (result = none ↔ ∀ id, ¬ CommonAncestor db base merge id) ∧
    ∀ id, result = some id → LowestCommonAncestor db base merge id

/-- Of the commits in the history of what the base id names and in the history of
what the merge id names, each that is no lowest common ancestor of the pair is
farther from the base side than another one. -/
def NearestIsLowest (db : NodeStore) (refs : Refs) (base merge : CommitNode) : Prop :=
  ∃ root, Named db refs base root ∧
    ((∃ id, CommonAncestor db base merge id) → ∃ id, ListedByBoth db refs root.hash merge id) ∧
    ∀ id, ListedByBoth db refs root.hash merge id → LowestCommonAncestor db base merge id ∨
      ∃ other, ListedByBoth db refs root.hash merge other ∧
        Nearer (parentsOf db none) root.hash other id

/-- The search finds a lowest common ancestor exactly when no shorter way from the
base commit leads past it to another common ancestor. -/
theorem findsLowest_iff (hk : db.Keyed) (ha : db.Acyclic) :
    FindsLowest db refs base merge ↔ NearestIsLowest db refs base merge := by
  constructor
  · intro h
    obtain ⟨root, hroot⟩ : ∃ root, Named db refs base root := by
      by_contra hnone
      have hget : Revisions.get db refs base.hash.display = .ok none := by
        rw [Revisions.get, if_neg (display_ne_head base.hash)]
        cases hn : getById db ((refs.branches.lookup base.hash.display).getD
            base.hash.display) with
        | none => rfl
        | some root =>
            refine absurd ⟨root, ?_⟩ hnone
            rw [Named, Revisions.get, if_neg (display_ne_head base.hash), hn]
      obtain ⟨result, ⟨m, hm⟩, -⟩ := h id fun ids => .refl ids
      obtain ⟨depths, -, n, hn⟩ := exists_mergeDepths hk ha refs merge
      have hrun := hm (max m n) (le_max_left m n)
      simp [lowestCommonAncestorFromCommits, listFromWithDepth, hget] at hrun
      have hmerge := hn (max m n) (le_max_right m n)
      simp only [listFromWithDepth] at hmerge
      simp [hmerge] at hrun
    obtain ⟨hall, hsome⟩ := @lowestCommonAncestorFromCommits_spec db refs base merge hk ha root hroot
    refine ⟨root, hroot, ?_, fun id hid => ?_⟩
    · rintro ⟨id, hid⟩
      by_contra hnone
      obtain ⟨result, hreturns, hiff, -⟩ := h _ fun ids => .refl ids
      obtain ⟨result', hreturns', -, hlisted⟩ := hall _ fun ids => .refl ids
      obtain rfl := Except.ok.inj (hreturns.unique hreturns')
      cases result with
      | none => exact hiff.mp rfl id hid
      | some lca => exact hnone ⟨lca, (hlisted lca rfl).1⟩
    · by_contra hnot
      rw [not_or, not_exists] at hnot
      obtain ⟨iter, hiter, hreturns⟩ := hsome id hid fun other ho hnear => hnot.2 other ⟨ho, hnear⟩
      obtain ⟨result, hreturns', -, hlowest⟩ := h iter hiter
      obtain rfl := Except.ok.inj (hreturns.unique hreturns')
      exact hnot.1 (hlowest id rfl)
  · rintro ⟨root, hroot, hmeet, hlow⟩ iter hiter
    obtain ⟨hall, -⟩ := @lowestCommonAncestorFromCommits_spec db refs base merge hk ha root hroot
    obtain ⟨result, hreturns, hnone, hlisted⟩ := hall iter hiter
    refine ⟨result, hreturns, ⟨fun hr id hid => ?_, fun hdisjoint => ?_⟩, fun id hid => ?_⟩
    · obtain ⟨other, ho⟩ := hmeet ⟨id, hid⟩
      exact hnone hr other ho
    · cases result with
      | none => rfl
      | some lca =>
          obtain ⟨hboth, hleast⟩ := hlisted lca rfl
          rcases hlow lca hboth with hlowest | ⟨other, ho, hnear⟩
          · exact absurd hlowest.1 (hdisjoint lca)
          · exact absurd hnear (hleast other ho)
    · obtain ⟨hboth, hleast⟩ := hlisted id hid
      rcases hlow id hboth with hlowest | ⟨other, ho, hnear⟩
      · exact hlowest
      · exact absurd hnear (hleast other ho)

/-! ### Pairs whose ids name them -/

/-- When both ids name their own commits, the search is right exactly when each
common ancestor that another one descends from is farther away than some other. -/
theorem nearestIsLowest_iff_of_named (hbase : Named db refs base base)
    (hmerge : Named db refs merge merge) :
    NearestIsLowest db refs base merge ↔
      ∀ id, CommonAncestor db base merge id → ∀ below, CommonAncestor db base merge below →
        Relation.TransGen (fun x y => y ∈ parentsOf db none x) below id →
          ∃ other, CommonAncestor db base merge other ∧
            Nearer (parentsOf db none) base.hash other id := by
  have hlisted : ∀ id, ListedByBoth db refs base.hash merge id ↔
      CommonAncestor db base merge id := by
    intro id
    refine and_congr_right fun _ => ⟨?_, fun h => ⟨merge, hmerge, h⟩⟩
    rintro ⟨named, hn, h⟩
    obtain rfl : merge = named := Option.some.inj (Except.ok.inj (hmerge.symm.trans hn))
    exact h
  constructor
  · rintro ⟨root, hroot, -, hlow⟩ id hid below hb hpath
    obtain rfl : base = root := Option.some.inj (Except.ok.inj (hbase.symm.trans hroot))
    rcases hlow id ((hlisted id).mpr hid) with hlowest | ⟨other, ho, hnear⟩
    · exact absurd hpath (hlowest.2 below hb)
    · exact ⟨other, (hlisted other).mp ho, hnear⟩
  · intro h
    refine ⟨base, hbase, ?_, fun id hid => ?_⟩
    · rintro ⟨id, hid⟩
      exact ⟨id, (hlisted id).mpr hid⟩
    · have hca := (hlisted id).mp hid
      by_cases hlowest : LowestCommonAncestor db base merge id
      · exact .inl hlowest
      · right
        simp only [LowestCommonAncestor, hca, true_and, not_forall, not_not] at hlowest
        obtain ⟨below, hb, hpath⟩ := hlowest
        obtain ⟨other, ho, hnear⟩ := h id hca below hb hpath
        exact ⟨other, (hlisted other).mpr ho, hnear⟩

/-- In a history without merges a longer walk goes through the end of a shorter one. -/
theorem walk_split {root x y : MerkleHash} {n k : ℕ}
    (hlinear : ∀ id, (parentsOf db none id).length ≤ 1) (hx : Walk (parentsOf db none) root x n)
    (hy : Walk (parentsOf db none) root y (n + k)) : Walk (parentsOf db none) x y k := by
  induction k generalizing y with
  | zero =>
      suffices hxy : x = y from hxy ▸ .root
      induction hx generalizing y with
      | root =>
          cases hy with
          | root => rfl
      | @step p q n hp hq ih =>
          cases hy with
          | @step p' _ _ hp' hy =>
              obtain rfl := ih hp'
              have hlen := hlinear p
              match hl : parentsOf db none p, hlen with
              | [], _ => simp [hl] at hq
              | [z], _ =>
                  rw [hl, List.mem_singleton] at hq hy
                  exact hq.trans hy.symm
              | _ :: _ :: _, hlen => simp at hlen
  | succ k ih =>
      cases hy with
      | step hp hy => exact (ih hp).step hy

/-- A base side without merge commits hides no common ancestor behind another. -/
theorem nearestIsLowest_of_linear (ha : db.Acyclic) (hbase : Named db refs base base)
    (hmerge : Named db refs merge merge) (hlinear : ∀ id, (parentsOf db none id).length ≤ 1) :
    NearestIsLowest db refs base merge := by
  rw [nearestIsLowest_iff_of_named hbase hmerge]
  intro id hid below hb hpath
  obtain ⟨n, hn⟩ := exists_walk hb.1
  refine ⟨below, hb, n, hn, fun k hk => ?_⟩
  by_contra hle
  obtain ⟨i, rfl⟩ := Nat.exists_eq_add_of_le (not_lt.mp hle)
  exact ha below (hpath.trans_left (walk_split hlinear hk hn).reaches)

/-! ### A way around a common ancestor -/

theorem acyclic_of_parents_lt
    (h : ∀ id c, getByHash db id = some c → ∀ parent ∈ c.parentIds, parent < id)
    (hk : db.Keyed) : db.Acyclic := by
  have hstep : ∀ x, ∀ y ∈ parentsOf db none x, y < x := by
    intro x y hy
    simp only [parentsOf, reduceCtorEq, if_false, List.mem_map, List.mem_flatMap,
      Option.mem_toList, List.mem_filterMap] at hy
    obtain ⟨parent, ⟨c, hc, id, hid, hget⟩, rfl⟩ := hy
    rw [hk id parent hget]
    exact h x c hc id hid
  intro id hcycle
  have hlt : ∀ y, Relation.TransGen (fun x y => y ∈ parentsOf db none x) id y → y < id := by
    intro y hy
    induction hy with
    | single hy => exact hstep _ _ hy
    | tail _ hy ih => exact BitVec.lt_trans (hstep _ _ hy) ih
  exact BitVec.lt_irrefl id (hlt id hcycle)

theorem mem_of_getByHash_find {records : List NodeDb} {id : MerkleHash} {c : CommitNode}
    (h : getByHash (fun hash => records.find? (·.node.hash = hash)) id = some c) :
    c.hash = id ∧ c ∈ records.filterMap (·.node.commit?) := by
  rw [getByHash] at h
  split at h
  · rename_i commit parentId children hr
    obtain rfl := Option.some.inj h
    have hid := List.find?_some hr
    exact ⟨of_decide_eq_true hid, List.mem_filterMap.mpr ⟨_, List.mem_of_find?_eq_some hr, rfl⟩⟩
  · cases h

theorem keyed_find (records : List NodeDb) :
    NodeStore.Keyed fun hash => records.find? (·.node.hash = hash) :=
  fun _ _ h => (mem_of_getByHash_find h).1

/-- Histories in which the ids go up. -/
theorem acyclic_find (records : List NodeDb)
    (hup : ((records.filterMap (·.node.commit?)).all
      fun c => c.parentIds.all (· < c.hash)) = true) :
    NodeStore.Acyclic fun hash => records.find? (·.node.hash = hash) := by
  refine acyclic_of_parents_lt (fun id c h => ?_) (keyed_find records)
  obtain ⟨rfl, hc⟩ := mem_of_getByHash_find h
  intro parent hparent
  exact of_decide_eq_true (List.all_eq_true.mp (List.all_eq_true.mp hup c hc) parent hparent)

namespace ShortcutExample

open HistoryExample

/-- Commit 6 merges a branch from commit 1 into the work after commit 2, from
which commit 7 branched off. -/
def records : List NodeDb :=
  [record 1 [] 1, record 2 [1] 2, record 3 [2] 3, record 4 [3] 4, record 5 [1] 5,
    record 6 [4, 5] 6, record 7 [2] 7]

def nodes : NodeStore := fun hash => records.find? (·.node.hash = hash)

def branches : Refs where
  headFile := some "main"
  branches := KeyedMap.insertAll ∅ [("main", MerkleHash.display 6), ("work", MerkleHash.display 7)]

def mainHead : CommitNode := commitNode 6 [4, 5] 6

def workHead : CommitNode := commitNode 7 [2] 7

theorem nodes_keyed : nodes.Keyed :=
  keyed_find records

theorem nodes_acyclic : nodes.Acyclic :=
  acyclic_find records (by decide)

theorem commonAncestor_two : CommonAncestor nodes mainHead workHead 2 := by
  have hfour : (4 : MerkleHash) ∈ parentsOf nodes none 6 := by decide
  have hthree : (3 : MerkleHash) ∈ parentsOf nodes none 4 := by decide
  have htwo : (2 : MerkleHash) ∈ parentsOf nodes none 3 := by decide
  have hwork : (2 : MerkleHash) ∈ parentsOf nodes none 7 := by decide
  constructor
  · exact .tail (.tail (.single hfour) hthree) htwo
  · exact .single hwork

end ShortcutExample

theorem findsLowest_iff_shortcut :
    FindsLowest ShortcutExample.nodes ShortcutExample.branches ShortcutExample.mainHead
        ShortcutExample.workHead ↔
      NearestIsLowest ShortcutExample.nodes ShortcutExample.branches ShortcutExample.mainHead
        ShortcutExample.workHead :=
  findsLowest_iff ShortcutExample.nodes_keyed ShortcutExample.nodes_acyclic

/-- The way over commit 5 is shorter than the one over commit 2, so commit 1 is
returned although commit 2 is a common ancestor that descends from it. -/
theorem not_findsLowest :
    ¬ FindsLowest ShortcutExample.nodes ShortcutExample.branches ShortcutExample.mainHead
      ShortcutExample.workHead := by
  intro h
  obtain ⟨result, ⟨n, hn⟩, -, hlowest⟩ := h id fun ids => .refl ids
  have hrun : lowestCommonAncestorFromCommits id ShortcutExample.nodes ShortcutExample.branches 20
      ShortcutExample.mainHead ShortcutExample.workHead = some (.ok (some 1)) := by
    decide
  have hfuel := lowestCommonAncestorFromCommits_mono hrun (le_max_right n 20)
  obtain rfl := Except.ok.inj (Option.some.inj ((hn _ (le_max_left n 20)).symm.trans hfuel))
  have hstep : (1 : MerkleHash) ∈ parentsOf ShortcutExample.nodes none 2 := by decide
  exact (hlowest 1 rfl).2 2 ShortcutExample.commonAncestor_two (.single hstep)

namespace CrissCrossExample

open HistoryExample

/-- Commits 4 and 5 both merge commits 2 and 3. -/
def records : List NodeDb :=
  [record 1 [] 1, record 2 [1] 2, record 3 [1] 3, record 4 [2, 3] 4, record 5 [3, 2] 5]

def nodes : NodeStore := fun hash => records.find? (·.node.hash = hash)

def branches : Refs where
  headFile := some "main"
  branches := KeyedMap.insertAll ∅ [("main", MerkleHash.display 4), ("work", MerkleHash.display 5)]

def mainHead : CommitNode := commitNode 4 [2, 3] 4

def workHead : CommitNode := commitNode 5 [3, 2] 5

theorem criss_keyed : nodes.Keyed :=
  keyed_find records

theorem criss_acyclic : nodes.Acyclic :=
  acyclic_find records (by decide)

end CrissCrossExample

theorem sameInEveryOrder_iff_crissCross :
    SameInEveryOrder CrissCrossExample.nodes CrissCrossExample.branches CrissCrossExample.mainHead
        CrissCrossExample.workHead ↔
      ∀ root, Named CrissCrossExample.nodes CrissCrossExample.branches CrissCrossExample.mainHead
          root → ∀ x y,
        Nearest CrissCrossExample.nodes CrissCrossExample.branches root.hash
            CrissCrossExample.workHead x →
          Nearest CrissCrossExample.nodes CrissCrossExample.branches root.hash
            CrissCrossExample.workHead y → x = y :=
  sameInEveryOrder_iff CrissCrossExample.criss_keyed CrissCrossExample.criss_acyclic

/-- Both merged commits are one step away, so the first one that comes is returned. -/
theorem not_sameInEveryOrder :
    ¬ SameInEveryOrder CrissCrossExample.nodes CrissCrossExample.branches
      CrissCrossExample.mainHead CrissCrossExample.workHead := by
  rintro ⟨result, hresult⟩
  obtain ⟨m, hm⟩ := hresult id fun ids => .refl ids
  obtain ⟨n, hn⟩ := hresult List.reverse fun ids => List.reverse_perm ids
  have hforward : lowestCommonAncestorFromCommits id CrissCrossExample.nodes
      CrissCrossExample.branches 20 CrissCrossExample.mainHead CrissCrossExample.workHead =
      some (.ok (some 3)) := by
    decide
  have hbackward : lowestCommonAncestorFromCommits List.reverse CrissCrossExample.nodes
      CrissCrossExample.branches 20 CrissCrossExample.mainHead CrissCrossExample.workHead =
      some (.ok (some 2)) := by
    decide
  have hfirst := lowestCommonAncestorFromCommits_mono hforward (le_max_right m 20)
  have hsecond := lowestCommonAncestorFromCommits_mono hbackward (le_max_right n 20)
  have heq := (hm _ (le_max_left m 20)).symm.trans hfirst
  have heq' := (hn _ (le_max_left n 20)).symm.trans hsecond
  have hresults := heq.symm.trans heq'
  revert hresults
  decide

end Merge

end Oxen
