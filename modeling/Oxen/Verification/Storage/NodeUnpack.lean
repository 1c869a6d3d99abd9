import Oxen.Model.NodeUnpack

/-! Which retries of unpacking an archive leave every node file complete. -/

namespace Oxen

namespace NodeUnpack

open OsPath Upload

variable {repo : Target} {files : NodeFiles} {attempt : Attempt}

/-! ## Complete files -/

/-- What belongs to every place. Node files are named by the hash of what they hold. -/
abbrev Content := List String → Data

variable {content : Content}

def Complete (content : Content) (files : NodeFiles) : Prop :=
  ∀ place data, files.lookup place = some data → data = content place

/-- The entry holds what belongs to its place, below directories. -/
structure NodeEntry.Holds (repo : Target) (content : Content) (entry : NodeEntry) : Prop where
  data_eq : entry.data = content (entry.place repo)
  dirs : ∀ place ∈ entry.parentPlaces repo, content place = .dir

/-- The entry is there as a whole. -/
def NodeEntry.Present (repo : Target) (files : NodeFiles) (entry : NodeEntry) : Prop :=
  files.lookup (entry.place repo) = some entry.data

theorem complete_insert (h : Complete content files) {place : List String} {data : Data}
    (hdata : data = content place) : Complete content (files.insert place data) := by
  intro other data' hlookup
  by_cases hother : other = place
  · subst hother
    rw [AList.lookup_insert] at hlookup
    rw [← Option.some.inj hlookup, hdata]
  · rw [AList.lookup_insert_ne hother] at hlookup
    exact h other data' hlookup

/-! ## One entry -/

/-- Nothing that is there goes away. -/
def Keeps (files files' : NodeFiles) : Prop :=
  ∀ place data, files.lookup place = some data → files'.lookup place = some data

theorem Keeps.trans {files' files'' : NodeFiles} (h : Keeps files files')
    (h' : Keeps files' files'') : Keeps files files'' :=
  fun place data hlookup => h' place data (h place data hlookup)

theorem keeps_insert {place : List String} (hplace : place ∉ files) (data : Data) :
    Keeps files (files.insert place data) := by
  intro other data' hlookup
  have hother : other ≠ place := by
    rintro rfl
    exact hplace (AList.lookup_isSome.mp (by rw [hlookup]; rfl))
  rwa [AList.lookup_insert_ne hother]

/-- Directories are created where nothing is. -/
theorem createDirs_spec (h : Complete content files) {places : List (List String)}
    (hdirs : ∀ place ∈ places, content place = .dir) :
    Complete content
        (places.foldl (fun files place => KeyedMap.insertNew files place .dir) files) ∧
      Keeps files
        (places.foldl (fun files place => KeyedMap.insertNew files place .dir) files) := by
  induction places generalizing files with
  | nil => exact ⟨h, fun _ _ hlookup => hlookup⟩
  | cons place places ih =>
      have hrest := fun q hq => hdirs q (List.mem_cons_of_mem _ hq)
      rw [List.foldl_cons, KeyedMap.insertNew]
      split
      · exact ih h hrest
      · next hplace =>
        rcases ih (complete_insert h (hdirs place List.mem_cons_self).symm) hrest with
          ⟨hcomplete, hkeeps⟩
        exact ⟨hcomplete, (keeps_insert hplace _).trans hkeeps⟩

theorem createDirAll_spec (h : Complete content files) {places : List (List String)}
    (hdirs : ∀ place ∈ places, content place = .dir) {files' : NodeFiles}
    (hcreate : createDirAll files places = some files') :
    Complete content files' ∧ Keeps files files' := by
  unfold createDirAll at hcreate
  split at hcreate
  · rw [← Option.some.inj hcreate]
    exact createDirs_spec h hdirs
  · cases hcreate

/-- What keeps an entry from being passed over, and from being left in part: one that can not
be read is there already, and a file is written to its end, even if that fails afterwards. -/
structure Attempt.Safe (repo : Target) (files : NodeFiles) (attempt : Attempt) : Prop where
  readable : attempt.fault = some .unreadable → attempt.entry.Present repo files
  whole : ∀ n bytes, attempt.fault = some (.write n) → attempt.entry.data = .file bytes →
    attempt.entry.place repo ∉ files → bytes.length ≤ n

/-- What handling an entry leaves. -/
structure Handled (repo : Target) (content : Content) (files : NodeFiles)
    (entries : List NodeEntry) (result : Except UnpackError (List MerkleHash) × NodeFiles) :
    Prop where
  complete : Complete content result.2
  keeps : Keeps files result.2
  present : result.1.isOk → ∀ entry ∈ entries, entry.Present repo result.2

theorem handled_error (h : Complete content files) (e : UnpackError) (entries : List NodeEntry) :
    Handled repo content files entries (.error e, files) :=
  ⟨h, fun _ _ hlookup => hlookup, fun hok => by cases hok⟩

theorem handled_unpackTo (h : Complete content files)
    (hholds : attempt.entry.Holds repo content) (hplace : attempt.entry.place repo ∉ files)
    (hwhole : ∀ n bytes, attempt.fault = some (.write n) → attempt.entry.data = .file bytes →
      bytes.length ≤ n) :
    Handled repo content files [attempt.entry] (unpackTo repo files attempt) := by
  rcases hfault : attempt.fault with _ | fault
  · simp only [unpackTo, hfault]
    refine ⟨complete_insert h hholds.data_eq, keeps_insert hplace _, fun _ entry hentry => ?_⟩
    rw [List.mem_singleton.mp hentry]
    exact AList.lookup_insert _
  · cases fault with
    | write n =>
        simp only [unpackTo, hfault]
        cases hdata : attempt.entry.data with
        | dir => exact handled_error h _ _
        | file bytes =>
            have htake : bytes.take n = bytes :=
              List.take_of_length_le (hwhole n bytes hfault hdata)
            simp only [Data.truncated, htake]
            refine ⟨complete_insert h ?_, keeps_insert hplace _, fun hok => by cases hok⟩
            rw [← hdata]
            exact hholds.data_eq
    | unreadable =>
        simp only [unpackTo, hfault]
        exact handled_error h _ _
    | createDirs =>
        simp only [unpackTo, hfault]
        exact handled_error h _ _
    | create =>
        simp only [unpackTo, hfault]
        exact handled_error h _ _

theorem handled_unpackNode (h : Complete content files)
    (hholds : attempt.entry.Holds repo content) (hsafe : attempt.Safe repo files) :
    Handled repo content files [attempt.entry] (unpackNode repo files attempt) := by
  unfold unpackNode
  simp only
  split
  · next hfault =>
    refine ⟨h, fun _ _ hlookup => hlookup, fun _ entry hentry => ?_⟩
    rw [List.mem_singleton.mp hentry]
    exact hsafe.readable hfault
  split
  · exact handled_error h _ _
  split
  · exact handled_error h _ _
  · next files' hcreate =>
    rcases createDirAll_spec h hholds.dirs hcreate with ⟨hcomplete, hkeeps⟩
    split
    · next hplace =>
      refine ⟨hcomplete, hkeeps, fun _ entry hentry => ?_⟩
      rcases Option.isSome_iff_exists.mp (AList.lookup_isSome.mpr hplace) with ⟨data, hlookup⟩
      rw [List.mem_singleton.mp hentry, NodeEntry.Present, hlookup, hholds.data_eq,
        hcomplete _ data hlookup]
    · next hplace =>
      have hbefore : attempt.entry.place repo ∉ files := by
        intro hmem
        rcases Option.isSome_iff_exists.mp (AList.lookup_isSome.mpr hmem) with ⟨data, hlookup⟩
        exact hplace (AList.lookup_isSome.mp (by rw [hkeeps _ _ hlookup]; rfl))
      have hunpack := handled_unpackTo hcomplete hholds hplace
        fun n bytes hfault hdata => hsafe.whole n bytes hfault hdata hbefore
      exact ⟨hunpack.complete, hkeeps.trans hunpack.keeps, hunpack.present⟩

/-! ## Archives and retries -/

/-- Every entry that a call comes to is safe where it is met. -/
def SafeEntries (repo : Target) : NodeFiles → List Attempt → Prop
  | _, [] => True
  | files, attempt :: attempts =>
      attempt.Safe repo files ∧
        ((unpackNode repo files attempt).1.isOk →
          SafeEntries repo (unpackNode repo files attempt).2 attempts)

theorem handled_unpackEntries {attempts : List Attempt} (h : Complete content files)
    (hholds : ∀ attempt ∈ attempts, attempt.entry.Holds repo content)
    (hsafe : SafeEntries repo files attempts) :
    Handled repo content files (attempts.map Attempt.entry)
      (unpackEntries repo files attempts) := by
  induction attempts generalizing files with
  | nil => exact ⟨h, fun _ _ hlookup => hlookup, fun _ entry hentry => by cases hentry⟩
  | cons attempt attempts ih =>
      have hfirst := handled_unpackNode h (hholds attempt List.mem_cons_self) hsafe.1
      rw [unpackEntries]
      rcases hunpack : unpackNode repo files attempt with ⟨_ | hashes, files'⟩
      · rw [hunpack] at hfirst
        exact ⟨hfirst.complete, hfirst.keeps, fun hok => by cases hok⟩
      · have hnext := hsafe.2
        rw [hunpack] at hfirst hnext
        have hrest := ih hfirst.complete (fun a ha => hholds a (List.mem_cons_of_mem _ ha))
          (hnext rfl)
        refine ⟨hrest.complete, hfirst.keeps.trans hrest.keeps, fun hok entry hentry => ?_⟩
        rcases List.mem_cons.mp hentry with rfl | hentry
        · exact hrest.keeps _ _ (hfirst.present rfl _ (List.mem_singleton.mpr rfl))
        · apply hrest.present _ entry hentry
          simp only at hok ⊢
          cases hresult : (unpackEntries repo files' attempts).1 with
          | error e =>
              rw [hresult] at hok
              cases hok
          | ok hashes => rfl

/-- The node files after some calls. -/
def afterCalls (repo : Target) (files : NodeFiles) (calls : List UnpackCall) : NodeFiles :=
  calls.foldl (fun files call => (unpackNodes repo files call).2) files

/-- Every entry that the calls come to is safe where it is met. -/
def SafeCalls (repo : Target) : NodeFiles → List UnpackCall → Prop
  | _, [] => True
  | files, call :: calls =>
      (call.opens = true → SafeEntries repo files call.attempts) ∧
        SafeCalls repo (unpackNodes repo files call).2 calls

theorem handled_unpackNodes {call : UnpackCall} (h : Complete content files)
    (hholds : ∀ attempt ∈ call.attempts, attempt.entry.Holds repo content)
    (hsafe : call.opens = true → SafeEntries repo files call.attempts) :
    Handled repo content files (call.attempts.map Attempt.entry)
      (unpackNodes repo files call) := by
  unfold unpackNodes
  split
  · next hopens => exact handled_unpackEntries h hholds (hsafe hopens)
  · exact handled_error h _ _

/-- If no entry is passed over that is not there, and no file is left in part, then after any
calls the files are complete, and a call that succeeds has left every entry of its archive. -/
theorem unpackNodes_complete (repo : Target) (content : Content) (files : NodeFiles)
    (calls : List UnpackCall) (hcomplete : Complete content files)
    (hholds : ∀ call ∈ calls, ∀ attempt ∈ call.attempts, attempt.entry.Holds repo content)
    (hsafe : SafeCalls repo files calls) :
    ∀ before call after, calls = before ++ call :: after →
      Complete content (afterCalls repo files (before ++ [call])) ∧
        ((unpackNodes repo (afterCalls repo files before) call).1.isOk →
          ∀ attempt ∈ call.attempts,
            attempt.entry.Present repo (afterCalls repo files (before ++ [call]))) := by
  intro before call after hcalls
  induction before generalizing files calls with
  | nil =>
      rw [hcalls] at hholds hsafe
      have hhandled := handled_unpackNodes hcomplete (hholds call List.mem_cons_self) hsafe.1
      exact ⟨hhandled.complete, fun hok attempt hattempt =>
        hhandled.present hok _ (List.mem_map_of_mem hattempt)⟩
  | cons first before ih =>
      rw [hcalls] at hholds hsafe
      have hhandled := handled_unpackNodes hcomplete (hholds first List.mem_cons_self) hsafe.1
      exact ih _ _ hhandled.complete (fun c hc => hholds c (List.mem_cons_of_mem _ hc)) hsafe.2 rfl

/-! A root directory's node file, which is cut off once. -/

private def dogs : Target :=
  { cwd := ["srv"], path := components "dogs", storage := .localStorage none }

private def rootNode : NodeEntry :=
  { path := "a1b/2c3/node", data := .file [7, 8, 9] }

private def nodeContent : Content := fun place =>
  if place = rootNode.place dogs then rootNode.data else .dir

private def unread : UnpackCall :=
  { attempts := [{ entry := rootNode, fault := some .unreadable }] }

private def cutOff : UnpackCall :=
  { attempts := [{ entry := rootNode, fault := some (.write 1) }] }

private def undisturbed : UnpackCall :=
  { attempts := [{ entry := rootNode }] }

private def noDirs : UnpackCall :=
  { attempts := [{ entry := rootNode, fault := some .createDirs }] }

private theorem rootNode_holds : rootNode.Holds dogs nodeContent :=
  ⟨by decide, by decide⟩

theorem rootNode_complete :
    Complete nodeContent (afterCalls dogs ∅ [noDirs, undisturbed]) ∧
      rootNode.Present dogs (afterCalls dogs ∅ [noDirs, undisturbed]) := by
  have hcomplete : Complete nodeContent ∅ := by
    intro place data hlookup
    cases hlookup
  have hholds : ∀ call ∈ [noDirs, undisturbed], ∀ attempt ∈ call.attempts,
      attempt.entry.Holds dogs nodeContent := by
    intro call hcall attempt hattempt
    have hentry : attempt.entry = rootNode := by
      rcases List.mem_pair.mp hcall with rfl | rfl
      · rw [List.mem_singleton.mp hattempt]
      · rw [List.mem_singleton.mp hattempt]
    rw [hentry]
    exact rootNode_holds
  have hsafe : SafeCalls dogs ∅ [noDirs, undisturbed] := by
    have hnoDirs : Attempt.Safe dogs ∅ { entry := rootNode, fault := some .createDirs } :=
      ⟨fun h => (by cases h), fun _ _ h => (by cases h)⟩
    have hundisturbed (files : NodeFiles) : Attempt.Safe dogs files { entry := rootNode } :=
      ⟨fun h => (by cases h), fun _ _ h => (by cases h)⟩
    have hsafeNoDirs : SafeEntries dogs ∅ noDirs.attempts := ⟨hnoDirs, fun _ => trivial⟩
    have hsafeUndisturbed (files : NodeFiles) : SafeEntries dogs files undisturbed.attempts :=
      ⟨hundisturbed files, fun _ => trivial⟩
    exact ⟨fun _ => hsafeNoDirs, fun _ => hsafeUndisturbed _, trivial⟩
  have hruns := unpackNodes_complete dogs nodeContent ∅ [noDirs, undisturbed] hcomplete hholds hsafe
    [noDirs] undisturbed [] rfl
  have hok : (unpackNodes dogs (afterCalls dogs ∅ [noDirs]) undisturbed).1.isOk := by decide
  rw [List.singleton_append] at hruns
  exact ⟨hruns.1, hruns.2 hok { entry := rootNode } (List.mem_singleton.mpr rfl)⟩

/-- An entry that can not be read is missing after a call that succeeds, and one that is written
in part stays so. -/
theorem not_unpackNodes_complete :
    rootNode.Holds dogs nodeContent ∧ Complete nodeContent ∅ ∧
      (unpackNodes dogs ∅ unread).1.isOk ∧
      (afterCalls dogs ∅ [unread]).lookup (rootNode.place dogs) = none ∧
      ¬ (unpackNodes dogs ∅ cutOff).1.isOk ∧
      (unpackNodes dogs (afterCalls dogs ∅ [cutOff]) undisturbed).1.isOk ∧
      (afterCalls dogs ∅ [cutOff, undisturbed]).lookup (rootNode.place dogs) =
        some (.file [7]) := by
  refine ⟨rootNode_holds, ?_, by decide, by decide, by decide,
    by decide, by decide⟩
  intro place data hlookup
  cases hlookup

end NodeUnpack

end Oxen
