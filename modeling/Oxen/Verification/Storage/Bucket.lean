import Oxen.Model.VersionBackends

/-! The keys that a bucket has for the versions of a repository, and what listings find. -/

namespace Oxen

open S3 S3VersionStore

variable {store : S3VersionStore} {bucket : Bucket} {h h' : HashText} {o o' : ℕ}
  {key start : Key}

/-! ## Keys -/

theorem HashText.slash_notMem (h : HashText) : '/' ∉ h.digits := by
  intro hmem
  have hhex := h.hex '/' hmem
  revert hhex
  decide

@[ext] theorem HashText.ext {h h' : HashText} (heq : h.digits = h'.digits) : h = h' := by
  cases h
  cases h'
  cases heq
  rfl

/-- A key below the directory of a version. -/
def keyOf (store : S3VersionStore) (h : HashText) (rest : Key) : Key :=
  store.versionDir h ++ '/' :: rest

theorem generateKey_eq : store.generateKey h = keyOf store h "data".toList := rfl

theorem chunksPrefix_eq : store.chunksPrefix h = keyOf store h "chunks/".toList := rfl

theorem chunkKey_eq :
    store.chunkKey h o = keyOf store h ("chunks/".toList ++ Nat.toDigits 10 o) := by
  rw [chunkKey, chunksPrefix_eq, keyOf, keyOf, List.append_assoc, List.cons_append]

/-- A separator that neither part before it has. -/
theorem append_sep_inj {α : Type*} {sep : α} {a b x y : List α} (ha : sep ∉ a) (hb : sep ∉ b) :
    a ++ sep :: x = b ++ sep :: y ↔ a = b ∧ x = y := by
  induction a generalizing b with
  | nil =>
      cases b with
      | nil => simp
      | cons d b =>
          simp only [List.mem_cons, not_or] at hb
          simp [hb.1]
  | cons c a ih =>
      simp only [List.mem_cons, not_or] at ha
      cases b with
      | nil => simp [Ne.symm ha.1]
      | cons d b =>
          simp only [List.mem_cons, not_or] at hb
          simp [ih ha.2 hb.2, and_assoc]

theorem keyOf_prefix_iff {x y : Key} :
    keyOf store h x <+: keyOf store h' y ↔ h = h' ∧ x <+: y := by
  simp only [keyOf, S3VersionStore.versionDir, List.append_assoc, List.prefix_append_right_inj]
  constructor
  · rintro ⟨t, ht⟩
    rw [List.append_assoc, List.cons_append,
      append_sep_inj h.slash_notMem h'.slash_notMem] at ht
    exact ⟨HashText.ext ht.1, t, ht.2⟩
  · rintro ⟨rfl, t, rfl⟩
    exact ⟨t, by simp⟩

theorem keyOf_inj {x y : Key} : keyOf store h x = keyOf store h' y ↔ h = h' ∧ x = y := by
  constructor
  · intro heq
    obtain ⟨rfl, -⟩ := keyOf_prefix_iff.mp ⟨[], by simpa using heq⟩
    exact ⟨rfl, by simpa [keyOf] using heq⟩
  · rintro ⟨rfl, rfl⟩
    rfl

theorem toDigits_inj : Nat.toDigits 10 o = Nat.toDigits 10 o' ↔ o = o' := by
  constructor
  · intro heq
    calc
      o = Nat.ofDigitChars 10 (Nat.toDigits 10 o) 0 := Nat.ofDigitChars_ten_toDigits.symm
      _ = Nat.ofDigitChars 10 (Nat.toDigits 10 o') 0 := by rw [heq]
      _ = o' := Nat.ofDigitChars_ten_toDigits
  · rintro rfl
    rfl

@[simp] theorem generateKey_inj : store.generateKey h = store.generateKey h' ↔ h = h' := by
  simp [generateKey_eq, keyOf_inj]

@[simp] theorem chunkKey_inj :
    store.chunkKey h o = store.chunkKey h' o' ↔ h = h' ∧ o = o' := by
  simp [chunkKey_eq, keyOf_inj, toDigits_inj]

@[simp] theorem generateKey_ne_chunkKey : store.generateKey h ≠ store.chunkKey h' o := by
  simp [generateKey_eq, chunkKey_eq, keyOf_inj]

@[simp] theorem chunkKey_ne_generateKey : store.chunkKey h o ≠ store.generateKey h' :=
  generateKey_ne_chunkKey.symm

theorem dirPrefix_eq : store.versionDir h ++ ['/'] = keyOf store h [] := rfl

@[simp] theorem dirPrefix_generateKey :
    store.versionDir h ++ ['/'] <+: store.generateKey h' ↔ h = h' := by
  simp [dirPrefix_eq, generateKey_eq, keyOf_prefix_iff]

@[simp] theorem dirPrefix_chunkKey :
    store.versionDir h ++ ['/'] <+: store.chunkKey h' o ↔ h = h' := by
  simp [dirPrefix_eq, chunkKey_eq, keyOf_prefix_iff]

@[simp] theorem chunksPrefix_generateKey :
    ¬ store.chunksPrefix h <+: store.generateKey h' := by
  rw [chunksPrefix_eq, generateKey_eq, keyOf_prefix_iff]
  rintro ⟨-, hprefix⟩
  revert hprefix
  decide

@[simp] theorem chunksPrefix_chunkKey :
    store.chunksPrefix h <+: store.chunkKey h' o ↔ h = h' := by
  rw [chunksPrefix_eq, chunkKey_eq, keyOf_prefix_iff]
  simp

/-- The name of a chunk's key is read back as its offset. -/
theorem parse_chunkKey (ho : o < UInt64.size) :
    (stripPrefix (store.chunksPrefix h) (store.chunkKey h o)).bind parseU64 = some o := by
  have hdigits : ∀ c ∈ Nat.toDigits 10 o, c.isDigit := fun c hc =>
    Nat.isDigit_of_mem_toDigits (by decide) le_rfl hc
  have hplus : (Nat.toDigits 10 o).head? ≠ some '+' := by
    intro hhead
    have hplus := hdigits '+' (List.mem_of_mem_head? hhead)
    revert hplus
    decide
  rw [stripPrefix, if_pos (by simp [chunkKey]), Option.bind_some, chunkKey, List.drop_left,
    parseU64, if_neg hplus]
  simpa [Nat.toDigits_ne_nil, ho] using hdigits

/-! ## Common prefixes -/

theorem rollUp_keyOf {rest : Key} :
    rollUp store.versionsPrefix (keyOf store h rest) = store.versionDir h ++ ['/'] := by
  have hall : ∀ c ∈ h.digits, decide (c ≠ '/') = true := by
    intro c hc
    simp only [ne_eq, decide_eq_true_eq]
    exact fun heq => h.slash_notMem (heq ▸ hc)
  have htake : (h.digits ++ '/' :: rest).takeWhile (· ≠ '/') = h.digits := by
    rw [List.takeWhile_append_of_pos hall, List.takeWhile_cons_of_neg (by simp), List.append_nil]
  rw [rollUp, keyOf, S3VersionStore.versionDir, List.append_assoc, List.drop_left, htake,
    if_pos (by simp), List.append_assoc]

theorem rollUp_key (hkey : key = store.generateKey h ∨ ∃ o, key = store.chunkKey h o) :
    rollUp store.versionsPrefix key = store.versionDir h ++ ['/'] := by
  rcases hkey with rfl | ⟨o, rfl⟩
  · rw [generateKey_eq, rollUp_keyOf]
  · rw [chunkKey_eq, rollUp_keyOf]

/-- The hash is what is left of a version's common prefix. -/
theorem strip_versionDir :
    (stripPrefix store.versionsPrefix (store.versionDir h ++ ['/'])).bind stripSlash =
      some h.digits := by
  rw [S3VersionStore.versionDir, List.append_assoc, stripPrefix, if_pos (by simp),
    List.drop_left, Option.bind_some, stripSlash, if_pos (by simp), List.dropLast_concat]

theorem isCommonPrefix_versionDir :
    isCommonPrefix store.versionsPrefix (store.versionDir h ++ ['/']) = true := by
  rw [isCommonPrefix, S3VersionStore.versionDir, List.append_assoc, List.drop_left]
  simp

theorem slash_lt {c : Char} (hc : c ∈ hexDigits) : '/' < c := by
  have hall : hexDigits.all ('/' < ·) = true := by decide
  exact of_decide_eq_true (List.all_eq_true.mp hall c hc)

theorem append_slash_lt {a b : List Char} (hb : ∀ c ∈ b, c ∈ hexDigits) (hlt : a < b) :
    a ++ ['/'] < b ++ ['/'] := by
  induction a generalizing b with
  | nil =>
      cases b with
      | nil => exact absurd hlt (lt_irrefl _)
      | cons d b =>
          exact List.cons_lt_cons_iff.mpr (.inl (slash_lt (hb d List.mem_cons_self)))
  | cons c a ih =>
      cases b with
      | nil => exact absurd hlt (by simp)
      | cons d b =>
          rcases List.cons_lt_cons_iff.mp hlt with hcd | ⟨rfl, hab⟩
          · exact List.cons_lt_cons_iff.mpr (.inl hcd)
          · exact List.cons_lt_cons_iff.mpr
              (.inr ⟨rfl, ih (fun c hc => hb c (List.mem_cons_of_mem _ hc)) hab⟩)

/-- Common prefixes come in the order of the hashes. -/
theorem versionDir_slash_le (hle : h.digits ≤ h'.digits) :
    store.versionDir h ++ ['/'] ≤ store.versionDir h' ++ ['/'] := by
  rcases hle.eq_or_lt with heq | hlt
  · rw [HashText.ext heq]
  · simp only [S3VersionStore.versionDir, List.append_assoc]
    exact (List.append_left_lt (append_slash_lt h'.hex hlt)).le

/-! ## Listings -/

theorem pairwise_lt_insertionSort {α : Type*} [LinearOrder α] {l : List α} (hl : l.Nodup) :
    (l.insertionSort (· ≤ ·)).Pairwise (· < ·) := by
  have hnodup : (l.insertionSort (· ≤ ·)).Nodup :=
    (List.perm_insertionSort (· ≤ ·) l).nodup_iff.mpr hl
  exact (List.pairwise_insertionSort (· ≤ ·) l).imp₂ (fun _ _ hle hne => lt_of_le_of_ne hle hne)
    hnodup

theorem insertionSort_eq_of_perm {α : Type*} [LinearOrder α] {l l' : List α} (hperm : l.Perm l') :
    l.insertionSort (· ≤ ·) = l'.insertionSort (· ≤ ·) := by
  apply List.Perm.eq_of_pairwise' (r := (· ≤ ·))
  · exact List.pairwise_insertionSort _ l
  · exact List.pairwise_insertionSort _ l'
  · exact ((List.perm_insertionSort _ l).trans hperm).trans
      (List.perm_insertionSort _ l').symm

theorem listObjectsWithPrefix_eq :
    listObjectsWithPrefix bucket start = objectEntries bucket start :=
  Listing.collect_eq (by decide) (pairwise_lt_insertionSort (bucket.nodupKeys.filter _))

theorem mem_listObjectsWithPrefix :
    key ∈ listObjectsWithPrefix bucket start ↔ key ∈ bucket ∧ start <+: key := by
  rw [listObjectsWithPrefix_eq, objectEntries, List.mem_insertionSort, List.mem_filter,
    AList.mem_keys, List.isPrefixOf_iff_prefix]

theorem nodup_listObjectsWithPrefix : (listObjectsWithPrefix bucket start).Nodup := by
  rw [listObjectsWithPrefix_eq, objectEntries,
    (List.perm_insertionSort _ _).nodup_iff]
  exact bucket.nodupKeys.filter _

theorem lookup_deleteObjects {keys : List Key} :
    (deleteObjects bucket keys).lookup key = if key ∈ keys then none else bucket.lookup key := by
  rw [deleteObjects, ← List.foldl_flatten, Batches.flatten_split (by decide),
    KeyedMap.lookup_foldl_erase_keys]
  congr

/-- Everything under a common start is gone. -/
theorem lookup_deletePrefix :
    (deleteObjects bucket (listObjectsWithPrefix bucket start)).lookup key =
      if start <+: key then none else bucket.lookup key := by
  rw [lookup_deleteObjects]
  simp only [mem_listObjectsWithPrefix]
  by_cases hmem : key ∈ bucket
  · simp [hmem]
  · simp [hmem, AList.lookup_eq_none.mpr hmem]

end Oxen
