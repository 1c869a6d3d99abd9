import Oxen.Lib.Runs
import Oxen.Verification.Storage.Bucket

/-! Chunks of any sizes are uploaded as the parts that their bytes are cut into. -/

namespace Oxen

open S3 S3VersionStore

variable {store : S3VersionStore} {bucket : Bucket} {h : HashText} {partBuf : Content}
  {parts : List Content}

/-- Parts that are uploaded one after another. -/
def uploadAll (parts ps : List Content) : Except S3.Error (List Content) :=
  ps.foldlM uploadPart parts

theorem uploadAll_append (parts ps qs : List Content) :
    uploadAll parts (ps ++ qs) = uploadAll parts ps >>= fun parts => uploadAll parts qs :=
  List.foldlM_append

theorem uploadAll_eq (ps : List Content) (hparts : parts.length ≤ maxParts) :
    uploadAll parts ps =
      if parts.length + ps.length ≤ maxParts then .ok (parts ++ ps)
      else .error .invalidPartNumber := by
  induction ps generalizing parts with
  | nil =>
      rw [List.length_nil, Nat.add_zero, if_pos hparts, List.append_nil]
      rfl
  | cons part ps ih =>
      rw [uploadAll, List.foldlM_cons, uploadPart]
      by_cases hfull : maxParts ≤ parts.length
      · rw [if_pos hfull, if_neg (by rw [List.length_cons]; omega)]
        rfl
      · have hnext : (parts ++ [part]).length ≤ maxParts := by
          rw [List.length_append, List.length_singleton]
          omega
        rw [if_neg hfull]
        refine (ih hnext).trans ?_
        simp only [List.length_append, List.length_cons, List.append_assoc,
          List.singleton_append, List.length_nil]
        congr 1
        rw [eq_iff_iff]
        omega

theorem minPartSize_pos : 0 < MIN_PART_SIZE := by decide

theorem split_flatten_append {full : List Content}
    (hfull : ∀ part ∈ full, part.length = MIN_PART_SIZE) (rest : Content) :
    Batches.split MIN_PART_SIZE (full.flatten ++ rest) =
      full ++ Batches.split MIN_PART_SIZE rest := by
  induction full with
  | nil => rfl
  | cons part full ih =>
      rw [List.flatten_cons, List.append_assoc,
        Batches.split_append minPartSize_pos (hfull part List.mem_cons_self),
        ih fun part hpart => hfull part (List.mem_cons_of_mem _ hpart), List.cons_append]

/-- Before the last chunk, full parts are uploaded, and what is left is kept. -/
theorem flush_false (partBuf : Content) :
    ∃ full rest, partBuf = full.flatten ++ rest ∧
      (∀ part ∈ full, part.length = MIN_PART_SIZE) ∧
      ∀ parts, flush false partBuf parts =
        uploadAll parts full >>= fun parts => .ok (rest, parts) := by
  induction hn : partBuf.length using Nat.strong_induction_on generalizing partBuf with
  | _ n ih =>
      have hpos := minPartSize_pos
      by_cases hlen : MIN_PART_SIZE ≤ partBuf.length
      · have hlt : (partBuf.drop MIN_PART_SIZE).length < n := by
          rw [List.length_drop]
          omega
        obtain ⟨full, rest, hbuf, hfull, hflush⟩ := ih _ hlt (partBuf.drop MIN_PART_SIZE) rfl
        refine ⟨partBuf.take MIN_PART_SIZE :: full, rest, ?_, ?_, ?_⟩
        · rw [List.flatten_cons, List.append_assoc, ← hbuf, List.take_append_drop]
        · intro part hpart
          rcases List.mem_cons.mp hpart with rfl | hpart
          · rw [List.length_take, Nat.min_eq_left hlen]
          · exact hfull part hpart
        · intro parts
          have hdrain : drainLen false partBuf = MIN_PART_SIZE := by simp [drainLen, hlen]
          rw [flush, dif_pos (.inl hlen), hdrain, uploadAll, List.foldlM_cons, bind_assoc]
          exact congrArg _ (funext hflush)
      · refine ⟨[], partBuf, rfl, by simp, ?_⟩
        intro parts
        rw [flush, dif_neg (by simp [hlen])]
        rfl

/-- At the last chunk, all that is left is uploaded. -/
theorem flush_true (partBuf : Content) (parts : List Content) :
    flush true partBuf parts =
      uploadAll parts (Batches.split MIN_PART_SIZE partBuf) >>= fun parts => .ok ([], parts) := by
  induction hn : partBuf.length using Nat.strong_induction_on generalizing partBuf parts with
  | _ n ih =>
      have hpos := minPartSize_pos
      by_cases hne : partBuf = []
      · rw [flush, dif_neg (by simp [hne, hpos.ne']), hne, Batches.split_nil]
        rfl
      · have hbuf := List.length_pos_of_ne_nil hne
        -- A shorter buffer is uploaded as it is, which is what the first part of it is.
        have hdrain : partBuf.take (drainLen true partBuf) = partBuf.take MIN_PART_SIZE ∧
            partBuf.drop (drainLen true partBuf) = partBuf.drop MIN_PART_SIZE := by
          by_cases hle : partBuf.length ≤ MIN_PART_SIZE
          · simp [drainLen, hle, List.take_of_length_le, List.drop_of_length_le]
          · simp [drainLen, hle]
        have hlt : (partBuf.drop MIN_PART_SIZE).length < n := by
          rw [List.length_drop]
          omega
        rw [flush, dif_pos (.inr ⟨rfl, hne⟩), hdrain.1, hdrain.2,
          Batches.split_of_ne_nil hpos hne, uploadAll, List.foldlM_cons, bind_assoc]
        apply congrArg
        funext parts
        exact ih _ hlt _ parts rfl

theorem uploadChunks_eq {contents : ℕ → Content} {offsets : List ℕ} (hne : offsets ≠ [])
    (hget : ∀ o ∈ offsets, getObject bucket (store.chunkKey h o) = .ok (contents o)) :
    store.uploadChunks bucket h offsets partBuf parts =
      uploadAll parts (Batches.split MIN_PART_SIZE (partBuf ++ (offsets.map contents).flatten)) := by
  induction offsets generalizing partBuf parts with
  | nil => exact absurd rfl hne
  | cons offset offsets ih =>
      rw [uploadChunks, hget offset List.mem_cons_self, Runs.ok_bind, List.map_cons,
        List.flatten_cons]
      cases offsets with
      | nil =>
          rw [List.isEmpty_nil, flush_true, bind_assoc, List.map_nil, List.flatten_nil,
            List.append_nil]
          exact bind_pure (uploadAll parts _)
      | cons next offsets =>
          obtain ⟨full, rest, hbuf, hfull, hflush⟩ := flush_false (partBuf ++ contents offset)
          have hrest : ∀ o ∈ next :: offsets,
              getObject bucket (store.chunkKey h o) = .ok (contents o) := fun o ho =>
            hget o (List.mem_cons_of_mem _ ho)
          rw [List.isEmpty_cons, hflush, bind_assoc, ← List.append_assoc, hbuf,
            List.append_assoc, split_flatten_append hfull, uploadAll_append]
          apply congrArg
          funext parts
          exact ih (List.cons_ne_nil _ _) hrest

/-- All parts but the last are large enough, so the upload can be completed unless it has no
part. -/
theorem completeMultipartUpload_split {key : Key} {data : Content} (hne : data ≠ []) :
    completeMultipartUpload bucket key (Batches.split MIN_PART_SIZE data) =
      .ok (bucket.insert key data) := by
  have hsplit : Batches.split MIN_PART_SIZE data ≠ [] := fun hnil =>
    hne ((Batches.split_eq_nil_iff minPartSize_pos).mp hnil)
  have hsizes : ((Batches.split MIN_PART_SIZE data).dropLast.any
      (·.length < minPartSize)) = false := by
    rw [List.any_eq_false]
    intro part hpart
    rw [Batches.length_of_mem_dropLast_split minPartSize_pos hpart]
    decide
  rw [completeMultipartUpload, if_neg hsplit, hsizes, if_neg Bool.false_ne_true,
    Batches.flatten_split minPartSize_pos]

/-- The most bytes that an upload can have. -/
def maxUpload : ℕ := maxParts * MIN_PART_SIZE

theorem combineVersionChunks_eq {contents : ℕ → Content} {offsets : List ℕ} {data : Content}
    (hlist : store.listVersionChunks bucket h = offsets) (hne : offsets ≠ [])
    (hget : ∀ o ∈ offsets, getObject bucket (store.chunkKey h o) = .ok (contents o))
    (hdata : (offsets.map contents).flatten = data) :
    (store.combineVersionChunks bucket h).toOption =
      if 0 < data.length ∧ data.length ≤ maxUpload then
        some (deleteObjects (bucket.insert (store.generateKey h) data)
          (listObjectsWithPrefix (bucket.insert (store.generateKey h) data)
            (store.chunksPrefix h)))
      else none := by
  obtain ⟨offset, rest, rfl⟩ := List.exists_cons_of_ne_nil hne
  have hupload : store.uploadChunks bucket h (offset :: rest) [] [] =
      uploadAll [] (Batches.split MIN_PART_SIZE data) := by
    rw [uploadChunks_eq hne hget, hdata, List.nil_append]
  have hfits : (Batches.split MIN_PART_SIZE data).length ≤ maxParts ↔ data.length ≤ maxUpload :=
    Batches.length_split_le_iff minPartSize_pos
  unfold combineVersionChunks
  rw [hlist]
  simp only [hupload]
  rw [uploadAll_eq _ (Nat.zero_le _), List.length_nil, Nat.zero_add, List.nil_append]
  by_cases hle : data.length ≤ maxUpload
  · rw [if_pos (hfits.mpr hle)]
    by_cases hnil : data = []
    · subst hnil
      rw [if_neg (by simp), Batches.split_nil]
      rfl
    · rw [if_pos ⟨List.length_pos_of_ne_nil hnil, hle⟩]
      change (completeMultipartUpload bucket (store.generateKey h)
        (Batches.split MIN_PART_SIZE data) >>= _).toOption = _
      rw [completeMultipartUpload_split hnil]
      rfl
  · rw [if_neg (fun hlen => hle (hfits.mp hlen)), if_neg (fun hboth => hle hboth.2)]
    rfl

end Oxen
