import Oxen.Verification.Storage.CleanVersions

/-! A version that is stored while no cleaning looks at it is whole, and stays so. -/

namespace Oxen

namespace CleanVersions

open Runs

variable {hashBuffer : Content → String} {v : Versions} {name : VersionName} {file : FileId}
  {bytes : ℕ} {call : Call} {s s₀ s' s'' : State} {data : Content} {action : Action}
  {actions before during later : List Action}

/-! ## The calls and their files -/

/-- The file that the call has open. -/
def Call.handle? : Call → Option FileId
  | write f _ _ => some f
  | listChunks _ f => some f
  | copy _ f _ _ _ => some f
  | _ => none

/-- The call is about to make the version's file, or may come to. -/
def Call.Wants (name : VersionName) : Call → Prop
  | makeDir n _ => n = name
  | lookForData n _ => n = name
  | createData n _ => n = name
  | createOutput n => n = name
  | _ => False

/-- All files that have a name, or that a call has open, were created. -/
structure Sound (s : State) : Prop where
  oneName : OneName s.versions
  opened : ∀ call ∈ s.calls, ∀ f, call.handle? = some f → f < s.versions.files.length

theorem length_le_next (call : Call) (bytes : ℕ) (hv : OneName v) :
    v.files.length ≤ (call.next v bytes).2.files.length := by
  cases call with
  | createData name data =>
      rw [Call.next]
      split
      · exact (gives_createData hv).le
      · exact le_rfl
  | createChunk name offset data =>
      rw [Call.next]
      split
      · exact (gives_createChunk hv).le
      · exact le_rfl
  | createOutput name =>
      rw [Call.next]
      split
      · exact (gives_createData hv).le
      · exact le_rfl
  | lookForData name data => rw [Call.next]; split <;> exact le_rfl
  | lookForChunk name offset data => rw [Call.next]; split <;> exact le_rfl
  | write f pos rest => rw [Call.next]; split <;> simp [Versions.writeAt]
  | listChunks name output => rw [Call.next.eq_def]; dsimp only; split <;> exact le_rfl
  | copy name output pos rest offsets =>
      rw [Call.next.eq_def]
      dsimp only
      split
      · simp [Versions.writeAt]
      · split
        · exact le_rfl
        · split <;> exact le_rfl
  | removeChunks name =>
      rw [Call.next]
      dsimp only
      split <;> exact le_rfl
  | makeDir name data => exact le_rfl
  | makeChunkDir name offset data => exact le_rfl
  | returned ok => exact le_rfl

/-- A call has a file open that it had open before, or that was just created. -/
theorem handle_next (hv : OneName v) (hcall : ∀ f, call.handle? = some f → f < v.files.length)
    {f : FileId} (h : (call.next v bytes).1.handle? = some f) :
    f < (call.next v bytes).2.files.length := by
  have hle := length_le_next call bytes hv
  by_cases hsame : call.handle? = some f
  · exact lt_of_lt_of_le (hcall f hsame) hle
  clear hle hcall
  cases call with
  | createData name data =>
      rw [Call.next] at h ⊢
      split at h
      · next hmem =>
        cases h
        rw [if_pos hmem]
        exact (gives_createData hv).lt
      · cases h
  | createChunk name offset data =>
      rw [Call.next] at h ⊢
      split at h
      · next hmem =>
        cases h
        rw [if_pos hmem]
        exact (gives_createChunk hv).lt
      · cases h
  | createOutput name =>
      rw [Call.next] at h ⊢
      split at h
      · next hmem =>
        cases h
        rw [if_pos hmem]
        exact (gives_createData hv).lt
      · cases h
  | lookForData name data => rw [Call.next] at h; split at h <;> cases h
  | lookForChunk name offset data => rw [Call.next] at h; split at h <;> cases h
  | write g pos rest =>
      rw [Call.next] at h
      split at h
      · cases h
      · exact absurd h hsame
  | listChunks name output =>
      rw [Call.next.eq_def] at h
      dsimp only at h
      split at h
      · exact absurd h hsame
      · cases h
  | copy name output pos rest offsets =>
      rw [Call.next.eq_def] at h
      dsimp only at h
      split at h
      · exact absurd h hsame
      · split at h
        · cases h
        · split at h
          · exact absurd h hsame
          · cases h
  | makeDir name data => cases h
  | makeChunkDir name offset data => cases h
  | removeChunks name => cases h
  | returned ok => cases h

theorem sound_step (h : Step hashBuffer action s s') (hs : Sound s) : Sound s' := by
  refine ⟨oneName_step h hs.oneName, ?_⟩
  cases action with
  | begins request =>
      cases h
      intro call hcall f hf
      rcases List.mem_append.mp hcall with hcall | hcall
      · exact hs.opened call hcall f hf
      · rw [List.mem_singleton.mp hcall] at hf
        cases request <;> cases hf
  | next i bytes =>
      rcases Option.map_eq_some_iff.mp h with ⟨call, hcall, rfl⟩
      intro c hc f hf
      rcases List.mem_or_eq_of_mem_set hc with hc | rfl
      · exact lt_of_lt_of_le (hs.opened c hc f hf) (length_le_next _ _ hs.oneName)
      · exact handle_next hs.oneName (hs.opened call (List.mem_of_getElem? hcall)) hf
  | fail i =>
      rcases Option.map_eq_some_iff.mp h with ⟨call, -, rfl⟩
      intro c hc f hf
      rcases List.mem_or_eq_of_mem_set hc with hc | rfl
      · exact hs.opened c hc f hf
      · cases hf
  | check n readable =>
      cases h
      split <;> exact hs.opened
  | remove n fault =>
      rw [Step, State.step] at h
      split at h
      · cases h
        intro c hc f hf
        rw [files_removeDirAll]
        exact hs.opened c hc f hf
      · cases h

/-- How far a call has stored the version's data. -/
inductive Stores (v : Versions) (name : VersionName) (data : Content) : Call → Prop
  | makeDir (hnone : v.file? (.data name) = none) : Stores v name data (.makeDir name data)
  | lookForData (hnone : v.file? (.data name) = none) : Stores v name data (.lookForData name data)
  | createData (hnone : v.file? (.data name) = none) : Stores v name data (.createData name data)
  | write {file : FileId} {done rest : Content} (hfile : v.file? (.data name) = some file)
      (hdone : v.files[file]? = some done) (hall : done ++ rest = data) :
      Stores v name data (.write file done.length rest)
  | whole {file : FileId} (hfile : v.file? (.data name) = some file)
      (hdata : v.files[file]? = some data) : Stores v name data (.returned true)
  | failed : Stores v name data (.returned false)

/-- A call that has nothing to do with the version's file. -/
structure Aside (v : Versions) (name : VersionName) (call : Call) : Prop where
  wants : ¬ call.Wants name
  touches : ∀ file, v.file? (.data name) = some file → ¬ call.Touches name file

theorem createData_of_none (hnone : v.file? (.data name) = none) :
    (v.createData name).1 = v.files.length ∧
      (v.createData name).2.files[v.files.length]? = some [] := by
  rw [file?_data] at hnone
  rw [Versions.createData, hnone]
  exact ⟨rfl, by simp [Versions.openFile, Versions.put]⟩

theorem writeAt_end {done : Content} (h : v.files[file]? = some done) (bytes : Content) :
    (v.writeAt file done.length bytes).files[file]? = some (done ++ bytes) := by
  simp [Versions.writeAt, h]

/-- The next step of the call that stores the version. -/
theorem Stores.next (hv : OneName v) (h : Stores v name data call) :
    Stores (call.next v bytes).2 name data (call.next v bytes).1 := by
  cases h with
  | makeDir hnone => exact .lookForData ((file?_makeDir _).trans hnone)
  | lookForData hnone =>
      have hdata : (v.entries name).data = none := hnone
      simp only [Call.next, hdata, Option.isSome_none, Bool.false_eq_true, if_false]
      exact .createData hnone
  | createData hnone =>
      rw [Call.next]
      split
      · have hgives : Gives v (v.createData name).2 (.data name) (v.createData name).1 :=
          gives_createData hv
        have hnew := createData_of_none hnone
        have hdone : (v.createData name).2.files[(v.createData name).1]? = some [] := by
          rw [hnew.1]
          exact hnew.2
        exact .write hgives.named hdone rfl
      · exact .failed
  | @write file done rest hfile hdone hall =>
      rw [Call.next]
      split
      · next hrest =>
        rw [hrest, List.append_nil] at hall
        exact .whole hfile (hall ▸ hdone)
      · have hnamed :
            (v.writeAt file done.length (rest.take bytes)).file? (.data name) = some file :=
          (file?_congr rfl _).trans hfile
        have hlen : done.length + (rest.take bytes).length = (done ++ rest.take bytes).length := by
          rw [List.length_append]
        rw [hlen]
        refine .write hnamed (writeAt_end hdone _) ?_
        rw [List.append_assoc, List.take_append_drop, hall]
  | whole hfile hdata => exact .whole hfile hdata
  | failed => exact .failed

theorem Call.handle_of_touches (h : call.Touches name file) :
    call.Wants name ∨ call.handle? = some file := by
  cases call with
  | createData n data => exact .inl h
  | createOutput n => exact .inl h
  | write f pos rest => exact .inr (congrArg some h)
  | listChunks n f => exact .inr (congrArg some h)
  | copy n f pos rest offsets => exact .inr (congrArg some h)
  | _ => exact h.elim

theorem wants_next (h : ¬ call.Wants name) : ¬ (call.next v bytes).1.Wants name := by
  cases call with
  | makeDir n data => exact h
  | lookForData n data =>
      rw [Call.next]
      split
      · exact fun h => h
      · exact h
  | createData n data => rw [Call.next]; split <;> exact fun h => h
  | makeChunkDir n offset data => exact fun h => h
  | lookForChunk n offset data => rw [Call.next]; split <;> exact fun h => h
  | createChunk n offset data => rw [Call.next]; split <;> exact fun h => h
  | write f pos rest => rw [Call.next]; split <;> exact fun h => h
  | createOutput n => rw [Call.next]; split <;> exact fun h => h
  | listChunks n f => rw [Call.next.eq_def]; dsimp only; split <;> exact fun h => h
  | copy n f pos rest offsets =>
      rw [Call.next.eq_def]
      dsimp only
      split
      · exact fun h => h
      · split
        · exact fun h => h
        · split <;> exact fun h => h
  | removeChunks n => exact fun h => h
  | returned ok => exact fun h => h

/-- A call that does not want the version's file leaves its name alone. -/
theorem data_next (bytes : ℕ) (hv : OneName v) (h : ¬ call.Wants name) :
    (call.next v bytes).2.file? (.data name) = v.file? (.data name) := by
  cases call with
  | makeDir n data => exact file?_makeDir _
  | lookForData n data => rw [Call.next]; split <;> rfl
  | createData n data =>
      have hne : n ≠ name := h
      rw [Call.next]
      split
      · exact (gives_createData hv).other _ (by simpa using hne.symm)
      · rfl
  | makeChunkDir n offset data => exact file?_makeChunkDir _
  | lookForChunk n offset data => rw [Call.next]; split <;> rfl
  | createChunk n offset data =>
      rw [Call.next]
      split
      · exact (gives_createChunk hv).other _ (by simp)
      · rfl
  | write f pos rest =>
      rw [Call.next]
      split
      · rfl
      · exact file?_congr rfl _
  | createOutput n =>
      have hne : n ≠ name := h
      rw [Call.next]
      split
      · exact (gives_createData hv).other _ (by simpa using hne.symm)
      · rfl
  | listChunks n f => rw [Call.next.eq_def]; dsimp only; split <;> rfl
  | copy n f pos rest offsets =>
      rw [Call.next.eq_def]
      dsimp only
      split
      · exact file?_congr rfl _
      · split
        · rfl
        · split <;> rfl
  | removeChunks n =>
      rw [Call.next]
      dsimp only
      split
      · rw [file?_data, file?_data, entries_put]
        split
        · next hn => rw [hn]
        · rfl
      · rfl
  | returned ok => rfl

/-- A call aside stays aside. -/
theorem Aside.next (hv : OneName v) (h : Aside v name call) :
    Aside (call.next v bytes).2 name (call.next v bytes).1 := by
  refine ⟨wants_next h.wants, ?_⟩
  intro file hfile
  rw [data_next _ hv h.wants] at hfile
  exact (next_spares _ hv hfile (h.touches file hfile)).2

/-- What a call has stored stays while another call aside takes a step. -/
theorem Stores.of_aside {c : Call} (hv : OneName v) (h : Stores v name data c)
    (haside : Aside v name call) : Stores (call.next v bytes).2 name data c := by
  have hname := data_next bytes hv haside.wants
  cases h with
  | makeDir hnone => exact .makeDir (hname.trans hnone)
  | lookForData hnone => exact .lookForData (hname.trans hnone)
  | createData hnone => exact .createData (hname.trans hnone)
  | write hfile hdone hall =>
      have hkept := (next_spares bytes hv hfile (haside.touches _ hfile)).1.kept
      exact .write (hname.trans hfile) (hkept.trans hdone) hall
  | whole hfile hdata =>
      have hkept := (next_spares bytes hv hfile (haside.touches _ hfile)).1.kept
      exact .whole (hname.trans hfile) (hkept.trans hdata)
  | failed => exact .failed

/-- The call that stores the version gives it the file it has, or a new one. -/
theorem Stores.file_next (hv : OneName v) (h : Stores v name data call)
    (hfile : (call.next v bytes).2.file? (.data name) = some file) :
    v.file? (.data name) = some file ∨ file = v.files.length := by
  cases h with
  | makeDir hnone => exact .inl (hfile ▸ (file?_makeDir _).symm)
  | lookForData hnone =>
      rw [Call.next] at hfile
      split at hfile <;> exact .inl hfile
  | createData hnone =>
      rw [Call.next] at hfile
      split at hfile
      · cases (gives_createData hv).named.symm.trans hfile
        exact .inr (createData_of_none hnone).1
      · exact .inl hfile
  | write hnamed hdone hall =>
      rw [Call.next] at hfile
      split at hfile
      · exact .inl hfile
      · exact .inl ((file?_congr rfl _).symm.trans hfile)
  | whole hnamed hdata => exact .inl hfile
  | failed => exact .inl hfile

/-- Another call stays aside while the version is stored. -/
theorem Aside.of_stores {c : Call} (hv : OneName v) (h : Aside v name c)
    (hopened : ∀ f, c.handle? = some f → f < v.files.length) (hstores : Stores v name data call) :
    Aside (call.next v bytes).2 name c := by
  refine ⟨h.wants, ?_⟩
  intro file hfile htouches
  rcases hstores.file_next hv hfile with hold | rfl
  · exact h.touches file hold htouches
  · rcases Call.handle_of_touches htouches with hwants | hhandle
    · exact h.wants hwants
    · exact lt_irrefl _ (hopened _ hhandle)

/-- The call at a place stores the version, all others are aside, and no cleaning is about to
remove it. -/
structure StoredBy (s : State) (i : ℕ) (name : VersionName) (data : Content) : Prop where
  stores : ∃ call, s.calls[i]? = some call ∧ Stores s.versions name data call
  aside : ∀ j call, j ≠ i → s.calls[j]? = some call → Aside s.versions name call
  spared : name ∉ s.condemned

/-- The action begins no call that writes the version's file, and checks another version. -/
def Action.LeavesAlone (name : VersionName) : Action → Prop
  | .begins (.storeVersion n _) => n ≠ name
  | .begins (.combineVersionChunks n) => n ≠ name
  | .check n _ => n ≠ name
  | _ => True

theorem aside_start {request : Request} (h : Action.LeavesAlone name (.begins request)) :
    Aside v name request.start := by
  cases request with
  | storeVersion n data => exact ⟨h, fun _ _ hfalse => hfalse⟩
  | storeVersionChunk n offset data => exact ⟨fun hfalse => hfalse, fun _ _ hfalse => hfalse⟩
  | combineVersionChunks n => exact ⟨h, fun _ _ => h⟩

theorem storedBy_step {i : ℕ} (h : Step hashBuffer action s s') (hs : Sound s)
    (haction : action.LeavesAlone name) (hstored : StoredBy s i name data) :
    StoredBy s' i name data := by
  rcases hstored.stores with ⟨own, hown, hstores⟩
  cases action with
  | begins request =>
      cases h
      refine ⟨⟨own, ?_, hstores⟩, ?_, hstored.spared⟩
      · exact (List.getElem?_append_left (List.getElem?_eq_some_iff.mp hown).1).trans hown
      · intro j c hne hc
        rcases List.mem_append.mp (List.mem_of_getElem? hc) with hmem | hmem
        · by_cases hlt : j < s.calls.length
          · rw [List.getElem?_append_left hlt] at hc
            exact hstored.aside j c hne hc
          · rw [List.getElem?_append_right (Nat.le_of_not_lt hlt)] at hc
            rw [List.mem_singleton.mp (List.mem_of_getElem? hc)]
            exact aside_start haction
        · rw [List.mem_singleton.mp hmem]
          exact aside_start haction
  | next j bytes =>
      rcases Option.map_eq_some_iff.mp h with ⟨call, hcall, rfl⟩
      by_cases hj : j = i
      · subst hj
        cases hown.symm.trans hcall
        refine ⟨⟨_, ?_, hstores.next hs.oneName⟩, ?_, hstored.spared⟩
        · exact List.getElem?_set_self (List.getElem?_eq_some_iff.mp hown).1
        · intro k c hne hc
          rw [List.getElem?_set_ne hne.symm] at hc
          exact (hstored.aside k c hne hc).of_stores hs.oneName
            (hs.opened c (List.mem_of_getElem? hc)) hstores
      · have haside := hstored.aside j call hj hcall
        refine ⟨⟨own, ?_, hstores.of_aside hs.oneName haside⟩, ?_, hstored.spared⟩
        · exact (List.getElem?_set_ne hj).trans hown
        · intro k c hne hc
          by_cases hk : k = j
          · subst hk
            rw [List.getElem?_set_self (List.getElem?_eq_some_iff.mp hcall).1] at hc
            cases hc
            exact haside.next hs.oneName
          · rw [List.getElem?_set_ne (Ne.symm hk)] at hc
            have hother := hstored.aside k c hne hc
            refine ⟨hother.wants, ?_⟩
            intro file hfile
            rw [data_next _ hs.oneName haside.wants] at hfile
            exact hother.touches file hfile
  | fail j =>
      rcases Option.map_eq_some_iff.mp h with ⟨call, hcall, rfl⟩
      by_cases hj : j = i
      · subst hj
        refine ⟨⟨_, List.getElem?_set_self (List.getElem?_eq_some_iff.mp hown).1, .failed⟩, ?_,
          hstored.spared⟩
        intro k c hne hc
        rw [List.getElem?_set_ne hne.symm] at hc
        exact hstored.aside k c hne hc
      · refine ⟨⟨own, (List.getElem?_set_ne hj).trans hown, hstores⟩, ?_, hstored.spared⟩
        intro k c hne hc
        by_cases hk : k = j
        · subst hk
          rw [List.getElem?_set_self (List.getElem?_eq_some_iff.mp hcall).1] at hc
          cases hc
          exact ⟨fun h => h, fun _ _ h => h⟩
        · rw [List.getElem?_set_ne (Ne.symm hk)] at hc
          exact hstored.aside k c hne hc
  | check n readable =>
      have hne : n ≠ name := haction
      cases h
      split
      · exact hstored
      · refine ⟨hstored.stores, hstored.aside, ?_⟩
        intro hmem
        rcases List.mem_cons.mp hmem with heq | hmem
        · exact hne heq.symm
        · exact hstored.spared hmem
  | remove n fault =>
      rw [Step, State.step] at h
      split at h
      · next hmem =>
        cases h
        have hne : name ≠ n := fun heq => hstored.spared (heq ▸ hmem)
        have hname : (removeDirAll s.versions n fault).2.file? (.data name) =
            s.versions.file? (.data name) := by
          rw [file?_data, file?_data, entries_removeDirAll hne]
        refine ⟨⟨own, hown, ?_⟩, ?_, fun hin => hstored.spared (List.mem_of_mem_erase hin)⟩
        · cases hstores with
          | makeDir hnone => exact .makeDir (hname.trans hnone)
          | lookForData hnone => exact .lookForData (hname.trans hnone)
          | createData hnone => exact .createData (hname.trans hnone)
          | write hfile hdone hall =>
              exact .write (hname.trans hfile) (by rw [files_removeDirAll, hdone]) hall
          | whole hfile hdata =>
              exact .whole (hname.trans hfile) (by rw [files_removeDirAll, hdata])
          | failed => exact .failed
        · intro j c hj hc
          have haside := hstored.aside j c hj hc
          refine ⟨haside.wants, ?_⟩
          intro file hfile
          rw [hname] at hfile
          exact haside.touches file hfile
      · cases h

theorem storedBy_run {i : ℕ} (h : Run (Step hashBuffer) actions s s') (hs : Sound s)
    (hactions : ∀ a ∈ actions, a.LeavesAlone name) (hstored : StoredBy s i name data) :
    StoredBy s' i name data := by
  induction h with
  | nil s => exact hstored
  | cons hstep _ ih =>
      have hfirst := hactions _ List.mem_cons_self
      apply ih (sound_step hstep hs) (fun a ha => hactions a (List.mem_cons_of_mem _ ha))
      exact storedBy_step hstep hs hfirst hstored

theorem sound_run (h : Run (Step hashBuffer) actions s s') (hs : Sound s) : Sound s' := by
  induction h with
  | nil s => exact hs
  | cons hstep _ ih => exact ih (sound_step hstep hs)

/-- The call has returned, and so the version is whole. -/
theorem StoredBy.settled {i : ℕ} (h : StoredBy s i name data)
    (hhash : hashBuffer data = expectedHash name) (hok : s.calls[i]? = some (.returned true)) :
    ∃ file, Settled hashBuffer s name file data := by
  rcases h.stores with ⟨call, hcall, hstores⟩
  cases hok.symm.trans hcall
  cases hstores with
  | whole hfile hdata =>
      refine ⟨_, hfile, hdata, hhash, ?_, h.spared⟩
      intro c hc
      rcases List.getElem?_of_mem hc with ⟨j, hj⟩
      by_cases hne : j = i
      · subst hne
        cases hok.symm.trans hj
        exact fun h => h
      · exact (h.aside j c hne hj).touches _ hfile

/-- A version is whole for ever that is stored, by a call that returns without an error, while no
other call stores it and no cleaning looks at it, whatever else goes on. -/
theorem stored_survives (hstart : Sound s₀) (hbefore : Run (Step hashBuffer) before s₀ s)
    (hnone : (s.versions.entries name).data = none)
    (hcalls : ∀ call ∈ s.calls, ¬ call.Wants name) (hspared : name ∉ s.condemned)
    (hhash : hashBuffer data = expectedHash name)
    (hstore : Run (Step hashBuffer) (.begins (.storeVersion name data) :: during) s s')
    (hduring : ∀ a ∈ during, a.LeavesAlone name)
    (hok : s'.calls[s.calls.length]? = some (.returned true))
    (hlater : Run (Step hashBuffer) later s' s'') (hspares : ∀ a ∈ later, a.Spares name) :
    s''.versions.data? name = some data := by
  have hs := sound_run hbefore hstart
  rcases hstore.cons_inv with ⟨begun, hbegin, hrest⟩
  have hbegun : StoredBy begun s.calls.length name data := by
    cases hbegin
    refine ⟨⟨.makeDir name data, by simp [Request.start], .makeDir hnone⟩, ?_, hspared⟩
    intro j c hne hc
    have hlt := (List.getElem?_eq_some_iff.mp hc).1
    rw [List.length_append, List.length_singleton] at hlt
    rw [List.getElem?_append_left (by omega)] at hc
    refine ⟨hcalls c (List.mem_of_getElem? hc), ?_⟩
    intro f hf
    cases hf.symm.trans hnone
  have hstored := storedBy_run hrest (sound_step hbegin hs) hduring hbegun
  rcases hstored.settled hhash hok with ⟨file, hsettled⟩
  have hs' := sound_run hstore hs
  exact (settled_run hlater hs'.oneName hspares hsettled).data?

/-! While one version is stored, a cleaning removes another one, and the cleaning that comes then
checks the first. -/

namespace StoredExample

open CleanExample

def meanwhile : List Action :=
  [.begins (.storeVersionChunk draft 0 [3]), .next 0 0, .next 1 0, .check draft true, .next 0 0,
    .next 0 0, .next 0 1, .remove draft none, .next 0 1, .next 0 0]

def afterwards : List Action := [.check photo true, .begins (.storeVersion photo [1, 2]), .next 2 0]

def written : State :=
  (follow (fun action s => s.step hashOf action)
    (.begins (.storeVersion photo [1, 2]) :: meanwhile) empty).getD empty

def checked : State := (follow (fun action s => s.step hashOf action) afterwards written).getD written

theorem written_run :
    Run (Step hashOf) (.begins (.storeVersion photo [1, 2]) :: meanwhile) empty written :=
  run_of_follow rfl

theorem checked_run : Run (Step hashOf) afterwards written checked := run_of_follow rfl

theorem sound_empty : Sound empty where
  oneName := oneName_empty
  opened call h := by cases h

theorem leavesAlone : ∀ a ∈ meanwhile, a.LeavesAlone photo := by
  simp [meanwhile, Action.LeavesAlone, photo, draft]

theorem spares_later : ∀ a ∈ afterwards, a.Spares photo := by
  simp [afterwards, Action.Spares]

end StoredExample

open CleanExample StoredExample in
theorem stored_survives_cleaning : checked.versions.data? photo = some [1, 2] :=
  stored_survives sound_empty (.nil empty) rfl (fun _ h => absurd h List.not_mem_nil)
    List.not_mem_nil rfl written_run leavesAlone rfl checked_run spares_later

end CleanVersions

end Oxen
