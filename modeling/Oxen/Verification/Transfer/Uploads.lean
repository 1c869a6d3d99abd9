import Oxen.Verification.Transfer.Attributed

/-! The uploads of a push: what the remote has after them, and when the commits that it
marks as synced are complete. -/

namespace Oxen

open Attribution Commits TreeNodes

variable {db : NodeStore} {s remote remote' : SyncedRepository} {fuel : ℕ} {commit : CommitNode}
  {info : PushCommitInfo} {hash id : MerkleHash} {x : PushItem} {uploads : Uploads}
  {ids : Set MerkleHash} {order : List MerkleHash} {result : Except PushCommitsError Unit}

def SyncedRepository.Has (remote : SyncedRepository) : PushItem → Prop
  | .node h => (remote.repo.db h).isSome
  | .version h => h ∈ remote.versions

/-! ## Requests -/

/-- The request stores the item. -/
def PushRequest.Stores : PushRequest → PushItem → Prop
  | .storeVersion h, .version h' => h' = h
  | .createNode h _, .node h' => h' = h
  | _, _ => False

/-- The item arrives before the upload that sends it fails. -/
def UploadFailure.Arrives (failure : Option UploadFailure) : PushItem → Prop
  | .node h => sendsNode failure h
  | .version h => sendsVersion failure h

theorem has_apply (remote : SyncedRepository) (request : PushRequest) :
    (request.apply remote).Has x ↔ remote.Has x ∨ request.Stores x := by
  cases request with
  | storeVersion h =>
      cases x with
      | node h' => simp [PushRequest.apply, SyncedRepository.Has, PushRequest.Stores]
      | version h' => simp [PushRequest.apply, SyncedRepository.Has, PushRequest.Stores, or_comm]
  | createNode h record =>
      cases x with
      | node h' =>
          simp only [PushRequest.apply, SyncedRepository.Has, PushRequest.Stores]
          rw [unpackNodes_cons, unpackNodes, List.foldl_nil]
          by_cases hheld : (remote.repo.db h).isSome
          · rw [if_pos hheld]
            refine ⟨.inl, ?_⟩
            rintro (hhas | rfl)
            · exact hhas
            · exact hheld
          · rw [if_neg hheld]
            by_cases hh : h' = h
            · subst hh
              simp
            · simp [hh]
      | version h' => simp [PushRequest.apply, SyncedRepository.Has, PushRequest.Stores]
  | postDirHashes commitId dirHashes =>
      cases x <;> simp [PushRequest.apply, SyncedRepository.Has, PushRequest.Stores]
  | markAsSynced commitId =>
      cases x <;> simp [PushRequest.apply, SyncedRepository.Has, PushRequest.Stores]

theorem has_foldl_apply (requests : List PushRequest) (remote : SyncedRepository) :
    (requests.foldl PushRequest.apply remote).Has x ↔
      remote.Has x ∨ ∃ request ∈ requests, request.Stores x := by
  induction requests generalizing remote with
  | nil => simp
  | cons request requests ih => simp [ih, has_apply, or_assoc]

theorem synced_apply (remote : SyncedRepository) (request : PushRequest) :
    id ∈ (request.apply remote).synced ↔ id ∈ remote.synced ∨ request = .markAsSynced id := by
  cases request with
  | markAsSynced commitId =>
      simp only [PushRequest.apply, List.mem_cons, PushRequest.markAsSynced.injEq]
      rw [or_comm, eq_comm]
  | storeVersion h => simp [PushRequest.apply]
  | createNode h record => simp [PushRequest.apply]
  | postDirHashes commitId dirHashes => simp [PushRequest.apply]

theorem synced_foldl_apply (requests : List PushRequest) (remote : SyncedRepository) :
    id ∈ (requests.foldl PushRequest.apply remote).synced ↔
      id ∈ remote.synced ∨ .markAsSynced id ∈ requests := by
  induction requests generalizing remote with
  | nil => simp
  | cons request requests ih =>
      simp only [List.foldl_cons, ih, synced_apply, List.mem_cons, or_assoc, eq_comm]

theorem refs_foldl_apply (requests : List PushRequest) (remote : SyncedRepository) :
    (requests.foldl PushRequest.apply remote).repo.refs = remote.repo.refs := by
  induction requests generalizing remote with
  | nil => rfl
  | cons request requests ih =>
      rw [List.foldl_cons, ih]
      cases request <;> rfl

/-! ## The requests of one upload -/

variable {failure : Option UploadFailure}

theorem markAsSynced_mem_uploadRequests (s : Repository) :
    .markAsSynced id ∈ uploadRequests s commit info failure ↔
      id = commit.hash ∧ UploadFailure.marks failure := by
  simp only [uploadRequests, List.mem_append, List.mem_map]
  constructor
  · rintro (((⟨_, _, h⟩ | ⟨⟨_, _⟩, _, h⟩) | h) | h)
    · cases h
    · cases h
    · split at h
      · simp at h
      · cases h
    · split at h
      · next hmarks =>
        exact ⟨PushRequest.markAsSynced.inj (List.mem_singleton.mp h), hmarks⟩
      · cases h
  · rintro ⟨rfl, hmarks⟩
    simp [hmarks]

/-- What arrives of an upload is stored. -/
theorem exists_stores (s : Repository) (hhas : info.Has x)
    (harrives : UploadFailure.Arrives failure x)
    (hstored : ∀ h, x = .node h → (s.db h).isSome) :
    ∃ request ∈ uploadRequests s commit info failure, request.Stores x := by
  cases x with
  | node h =>
      have hkeys : h ∈ (compressNodes s.db
          (info.uniqueDirNodes.filter (UploadFailure.sendsNode failure))).map Prod.fst :=
        mem_keys_compressNodes.mpr ⟨List.mem_filter.mpr ⟨hhas, harrives⟩, hstored h rfl⟩
      obtain ⟨⟨h', record⟩, hmem, rfl⟩ := List.mem_map.mp hkeys
      refine ⟨.createNode h' record, ?_, rfl⟩
      simp only [uploadRequests, List.mem_append, List.mem_map]
      exact .inl (.inl (.inr ⟨_, hmem, rfl⟩))
  | version h =>
      refine ⟨.storeVersion h, ?_, rfl⟩
      simp only [uploadRequests, List.mem_append, List.mem_map]
      exact .inl (.inl (.inl ⟨h, List.mem_filter.mpr ⟨hhas, harrives⟩, rfl⟩))

/-! ## All uploads of a push -/

/-- What the uploads do to the remote. -/
structure UploadEffect (db : NodeStore) (uploads : Uploads) (ids : Set MerkleHash)
    (order : List MerkleHash) (remote remote' : SyncedRepository) : Prop where
  refs : remote'.repo.refs = remote.repo.refs
  keeps : ∀ x, remote.Has x → remote'.Has x
  arrives : ∀ id ∈ order, id ∉ remote.synced → ∀ x, SentWith db ids order x id →
    UploadFailure.Arrives (uploads.failure id) x → remote'.Has x
  synced : ∀ id, id ∈ remote'.synced ↔ id ∈ remote.synced ∨
    id ∈ order ∧ id ∉ remote.synced ∧ UploadFailure.marks (uploads.failure id)

theorem mem_commitsWithInfo {latest : Option CommitNode} {commits : List CommitNode} :
    (commit, info) ∈ commitsWithInfo s remote fuel latest commits ↔
      (commit, info) ∈ getCommitMissingHashes s.repo fuel latest commits ∧
        commit.hash ∉ remote.synced := by
  simp [commitsWithInfo]

/-- A push of commits either sends nothing and fails, or uploads them; it succeeds if no
upload fails. -/
theorem pushCommits_spec (hap : FilesApart s.repo.db) {latest : Option CommitNode}
    {commits : List CommitNode} (hlatest : ∀ c ∈ latest, Loads s.repo.db s.repo.dirHashes fuel c)
    (hloads : ∀ c ∈ commits, Loads s.repo.db s.repo.dirHashes fuel c)
    (h : pushCommits s remote fuel uploads latest commits = (result, remote')) :
    (remote' = remote ∧ result ≠ .ok ()) ∨
      UploadEffect s.repo.db uploads (latestIds latest) (commits.map (·.hash)).reverse
          remote remote' ∧
        (result = .ok () → ∀ c ∈ commits, c.hash ∈ remote'.synced) := by
  obtain ⟨hfst, hsent⟩ := getCommitMissingHashes_spec hap hlatest hloads
  have hmem : ∀ id, id ∈ (commits.map (·.hash)).reverse ↔ ∃ c info,
      (c, info) ∈ getCommitMissingHashes s.repo fuel latest commits ∧ c.hash = id := by
    intro id
    rw [← List.map_reverse, ← hfst]
    simp
  simp only [pushCommits] at h
  split at h
  · obtain ⟨rfl, rfl⟩ := Prod.mk.inj h
    exact .inl ⟨rfl, by simp⟩
  · obtain ⟨hresult, hremote⟩ := Prod.mk.inj h
    have hperm : ∀ request, request ∈ uploads.arrive ((commitsWithInfo s remote fuel latest
        commits).flatMap fun pair =>
          uploadRequests s.repo pair.1 pair.2 (uploads.failure pair.1.hash)) ↔
        ∃ c info, ((c, info) ∈ getCommitMissingHashes s.repo fuel latest commits ∧
          c.hash ∉ remote.synced) ∧
          request ∈ uploadRequests s.repo c info (uploads.failure c.hash) := by
      intro request
      rw [(uploads.perm _).mem_iff]
      simp [List.mem_flatMap, mem_commitsWithInfo]
    have hsynced : ∀ id, id ∈ remote'.synced ↔ id ∈ remote.synced ∨
        id ∈ (commits.map (·.hash)).reverse ∧ id ∉ remote.synced ∧
          UploadFailure.marks (uploads.failure id) := by
      intro id
      rw [← hremote, synced_foldl_apply, hperm, hmem]
      simp only [markAsSynced_mem_uploadRequests]
      constructor
      · rintro (hid | ⟨c, info, ⟨hinfo, hnot⟩, rfl, hmarks⟩)
        · exact .inl hid
        · exact .inr ⟨⟨c, info, hinfo, rfl⟩, hnot, hmarks⟩
      · rintro (hid | ⟨⟨c, info, hinfo, rfl⟩, hnot, hmarks⟩)
        · exact .inl hid
        · exact .inr ⟨c, info, ⟨hinfo, hnot⟩, rfl, hmarks⟩
    refine .inr ⟨⟨?_, ?_, ?_, hsynced⟩, ?_⟩
    · rw [← hremote, refs_foldl_apply]
    · intro x hx
      rw [← hremote, has_foldl_apply]
      exact .inl hx
    · intro id hid hnot x hx harrives
      obtain ⟨c, info, hinfo, rfl, hhas⟩ := hsent x id hx
      have hc : c ∈ commits := by
        rw [← List.mem_reverse, ← hfst]
        exact List.mem_map_of_mem hinfo
      obtain ⟨t, ht, -⟩ := hloads c hc
      have htid : t.id = c.hash := congrArg CommitNode.hash ht.commit_eq
      rw [← htid] at hx
      have hstored : ∀ h, x = .node h → (s.repo.db h).isSome := by
        rintro h rfl
        exact isSome_of_node_mem_items hx.mem_items
      obtain ⟨request, hrequest, hstores⟩ : ∃ request ∈ uploadRequests s.repo c info
          (uploads.failure c.hash), request.Stores x :=
        exists_stores s.repo hhas harrives hstored
      rw [← hremote, has_foldl_apply]
      exact .inr ⟨request, (hperm request).mpr ⟨c, info, ⟨hinfo, hnot⟩, hrequest⟩, hstores⟩
    · intro hok c hc
      by_cases hold : c.hash ∈ remote.synced
      · exact (hsynced _).mpr (.inl hold)
      · have hc' : c.hash ∈ (commits.map (·.hash)).reverse :=
          List.mem_reverse.mpr (List.mem_map_of_mem hc)
        obtain ⟨c', info, hinfo, hid⟩ := (hmem c.hash).mp hc'
        rw [hok] at hresult
        split at hresult
        · next hall =>
          have hnone := List.all_eq_true.mp hall (c', info)
            (mem_commitsWithInfo.mpr ⟨hinfo, hid ▸ hold⟩)
          rw [hid, Option.isNone_iff_eq_none] at hnone
          exact (hsynced _).mpr (.inr ⟨hc', hold, by rw [hnone]; rfl⟩)
        · cases hresult

/-! ## Complete commits -/

/-- The remote has the commit with its whole tree. -/
def SyncedRepository.Complete (remote : SyncedRepository) (db : NodeStore) (id : MerkleHash) :
    Prop :=
  ∀ x ∈ Items db id, remote.Has x

/-- The remote has every commit of the client that it marked as synced. -/
def SyncedRepository.SyncedComplete (remote : SyncedRepository) (db : NodeStore) : Prop :=
  ∀ id ∈ remote.synced, (getByHash db id).isSome → remote.Complete db id

/-- What a failing upload does not deliver is in no commit that the same push marks as
synced, unless the remote has it or it arrives below a new node of another upload. -/
def Uploads.Whole (uploads : Uploads) (db : NodeStore) (remote : SyncedRepository)
    (ids : Set MerkleHash) (order : List MerkleHash) : Prop :=
  ∀ failed ∈ order, failed ∉ remote.synced → ∀ x, NewWith db ids order x failed →
    ¬ UploadFailure.Arrives (uploads.failure failed) x →
      ∀ id ∈ order, id ∉ remote.synced → UploadFailure.marks (uploads.failure id) →
        x ∈ Items db id → remote.Has x ∨ ∃ other ∈ order, other ∉ remote.synced ∧
          SentWith db ids order x other ∧ UploadFailure.Arrives (uploads.failure other) x

theorem UploadEffect.syncedComplete (h : UploadEffect db uploads ids order remote remote')
    (hsync : remote.SyncedComplete db) (hknown : ∀ x ∈ Known db ids, remote.Has x)
    (hstored : ∀ id ∈ order, (getByHash db id).isSome)
    (hwhole : uploads.Whole db remote ids order) : remote'.SyncedComplete db := by
  intro id hid hsome x hx
  rcases (h.synced id).mp hid with hold | ⟨horder, hnot, hmarks⟩
  · exact h.keeps x (hsync id hold hsome x hx)
  by_cases hx' : x ∈ Known db ids
  · exact h.keeps x (hknown x hx')
  -- The upload that the item is attributed to was done before, succeeds or fails.
  obtain ⟨first, hfirst⟩ := exists_firstWith horder hx
  obtain ⟨hmem, hxfirst⟩ := hfirst.mem
  by_cases hdone : first ∈ remote.synced
  · exact h.keeps x (hsync first hdone (hstored first hmem) x hxfirst)
  by_cases harrives : UploadFailure.Arrives (uploads.failure first) x
  · exact h.arrives first hmem hdone x (.inl ⟨hx', hfirst⟩) harrives
  · rcases hwhole first hmem hdone x ⟨hx', hfirst⟩ harrives id horder hnot hmarks hx with
      hhas | ⟨other, hother, hnotother, hsent, harrives⟩
    · exact h.keeps x hhas
    · exact h.arrives other hother hnotother x hsent harrives

end Oxen
