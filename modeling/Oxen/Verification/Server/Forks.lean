import Mathlib.Data.List.Infix
import Oxen.Model.Fork
import Oxen.Model.VNodes

/-! A fork is complete when its status says so, unless the status is copied with it or something of
the original is passed over. -/

namespace Oxen

namespace Fork

variable {Progress : Type} {format : Format Progress} {originalPath base p q : PathBuf}
  {disk s t : Disk} {ops before after : List Op} {op : Op} {content : Content}
  {listing rest : Listing}

/-! ## Operations -/

namespace Op

def path : Op → PathBuf
  | createDirAll path => path
  | write path _ => path

@[simp] theorem path_cut (k : ℕ) : (op.cut k).path = op.path := by
  cases op <;> rfl

/-- What an operation leaves at its path. -/
def entry : Op → Entry
  | createDirAll _ => .dir
  | write _ content => .file content

theorem apply_createDirAll (h : (createDirAll p).apply disk = some s) :
    (s = disk ∧ (disk p).isSome) ∨
      (disk p = none ∧ InDir disk p ∧ s = Function.update disk p (some .dir)) := by
  rw [apply] at h
  split_ifs at h with hsome hdir
  · exact .inl ⟨(Option.some.inj h).symm, hsome⟩
  · exact .inr ⟨Option.not_isSome_iff_eq_none.mp hsome, hdir, (Option.some.inj h).symm⟩

theorem apply_write (h : (write p content).apply disk = some s) :
    disk p ≠ some .dir ∧ InDir disk p ∧ s = Function.update disk p (some (.file content)) := by
  rw [apply] at h
  split_ifs at h with hcan
  exact ⟨hcan.1, hcan.2, (Option.some.inj h).symm⟩

theorem ext {op op' : Op} (hpath : op.path = op'.path) (hentry : op.entry = op'.entry) :
    op = op' := by
  cases op with
  | createDirAll path =>
      cases op' with
      | createDirAll path' => exact congrArg createDirAll hpath
      | write path' content => cases hentry
  | write path content =>
      cases op' with
      | createDirAll path' => cases hentry
      | write path' content' =>
          cases hentry
          exact congrArg (write · content) hpath

theorem apply_of_ne (h : op.apply disk = some s) (hne : op.path ≠ p) : s p = disk p := by
  cases op with
  | createDirAll path =>
      rcases apply_createDirAll h with ⟨rfl, -⟩ | ⟨-, -, rfl⟩
      · rfl
      · exact Function.update_of_ne (Ne.symm hne) _ _
  | write path content =>
      rcases apply_write h with ⟨-, -, rfl⟩
      exact Function.update_of_ne (Ne.symm hne) _ _

/-- A path is left as it was, or as the operation makes it. -/
theorem apply_self (h : op.apply disk = some s) :
    s op.path = disk op.path ∨ s op.path = some op.entry := by
  cases op with
  | createDirAll path =>
      rcases apply_createDirAll h with ⟨rfl, -⟩ | ⟨-, -, rfl⟩
      · exact .inl rfl
      · exact .inr (Function.update_self _ _ _)
  | write path content =>
      rcases apply_write h with ⟨-, -, rfl⟩
      exact .inr (Function.update_self _ _ _)

theorem apply_write_self (h : (write p content).apply disk = some s) :
    s p = some (.file content) := by
  rcases apply_write h with ⟨-, -, rfl⟩
  exact Function.update_self _ _ _

/-- What is at a path stays of its kind. -/
theorem apply_keeps_kind (h : op.apply disk = some s) {entry : Entry} (hentry : disk p = some entry) :
    ∃ entry', s p = some entry' ∧ (entry' = .dir ↔ entry = .dir) := by
  by_cases hne : op.path = p
  case neg => exact ⟨entry, (apply_of_ne h hne).trans hentry, Iff.rfl⟩
  subst hne
  cases op with
  | createDirAll path =>
      rcases apply_createDirAll h with ⟨rfl, -⟩ | ⟨hnone, -, -⟩
      · exact ⟨entry, hentry, Iff.rfl⟩
      · cases hnone.symm.trans hentry
  | write path content =>
      have hfile : entry ≠ .dir := fun heq => (apply_write h).1 (heq ▸ hentry)
      exact ⟨.file content, apply_write_self h, by simp [hfile]⟩

theorem apply_keeps_dir (h : op.apply disk = some s) (hdir : disk p = some .dir) :
    s p = some .dir := by
  rcases apply_keeps_kind h hdir with ⟨entry, hs, hkind⟩
  rw [hs, hkind.mpr rfl]

/-- Whether a file can be written does not depend on what is written. -/
theorem exists_apply_cut (h : op.apply disk = some s) (length : ℕ) :
    ∃ t, (op.cut length).apply disk = some t := by
  cases op with
  | createDirAll path => exact ⟨s, h⟩
  | write path content =>
      rcases apply_write h with ⟨hdir, hin, -⟩
      exact ⟨_, if_pos ⟨hdir, hin⟩⟩

end Op

theorem run_append : run disk (before ++ after) = (run disk before).bind fun t => run t after := by
  rw [run, List.foldlM_append]
  rfl

theorem run_cons : run disk (op :: ops) = (op.apply disk).bind fun t => run t ops := by
  rw [run, List.foldlM_cons]
  rfl

/-- Where nothing is written everything stays. -/
theorem run_of_ne (h : run disk ops = some s) (hne : ∀ op ∈ ops, op.path ≠ p) : s p = disk p := by
  induction ops generalizing disk with
  | nil =>
      cases h
      rfl
  | cons op ops ih =>
      rw [run_cons] at h
      rcases Option.bind_eq_some_iff.mp h with ⟨t, ht, hrun⟩
      rw [ih hrun fun op' hop' => hne op' (List.mem_cons_of_mem op hop'),
        Op.apply_of_ne ht (hne op List.mem_cons_self)]

/-- A file that is written in one way only is there in the end. -/
theorem run_of_mem (h : run disk ops = some s) (hop : .write p content ∈ ops)
    (honly : ∀ op ∈ ops, op.path = p → op = .write p content) : s p = some (.file content) := by
  induction ops generalizing disk with
  | nil => cases hop
  | cons first ops ih =>
      rw [run_cons] at h
      rcases Option.bind_eq_some_iff.mp h with ⟨t, ht, hrun⟩
      have hrest : ∀ op ∈ ops, op.path = p → op = .write p content :=
        fun op hop => honly op (List.mem_cons_of_mem first hop)
      by_cases hmem : .write p content ∈ ops
      · exact ih hrun hmem hrest
      · obtain rfl := (List.mem_cons.mp hop).resolve_right hmem
        rw [run_of_ne hrun fun op hop heq => hmem (hrest op hop heq ▸ hop), Op.apply_write_self ht]

/-- What is at a path is what was there before or what an operation left. -/
theorem run_cases (h : run disk ops = some s) (p : PathBuf) :
    s p = disk p ∨ ∃ op ∈ ops, op.path = p ∧ s p = some op.entry := by
  induction ops generalizing disk with
  | nil =>
      cases h
      exact .inl rfl
  | cons op ops ih =>
      rw [run_cons] at h
      rcases Option.bind_eq_some_iff.mp h with ⟨t, ht, hrun⟩
      rcases ih hrun with hsame | ⟨op', hop', hpath, hentry⟩
      · by_cases heq : op.path = p
        · subst heq
          rcases Op.apply_self ht with hkept | hentry
          · exact .inl (hsame.trans hkept)
          · exact .inr ⟨op, List.mem_cons_self, rfl, hsame.trans hentry⟩
        · exact .inl (hsame.trans (Op.apply_of_ne ht heq))
      · exact .inr ⟨op', List.mem_cons_of_mem op hop', hpath, hentry⟩

/-- A directory stays. -/
theorem run_keeps_dir (h : run disk ops = some s) (hdir : disk p = some .dir) : s p = some .dir := by
  induction ops generalizing disk with
  | nil =>
      cases h
      exact hdir
  | cons op ops ih =>
      rw [run_cons] at h
      rcases Option.bind_eq_some_iff.mp h with ⟨t, ht, hrun⟩
      exact ih hrun (Op.apply_keeps_dir ht hdir)

/-! ## What a directory holds -/

namespace Listing

def names : Listing → List String
  | nil => []
  | file name _ rest => name :: rest.names
  | dir name _ rest => name :: rest.names

/-- Every name is listed once. -/
def Distinct : Listing → Prop
  | nil => True
  | file name _ rest => name ∉ rest.names ∧ rest.Distinct
  | dir name entries rest => name ∉ rest.names ∧ entries.Distinct ∧ rest.Distinct

/-- The paths below a directory, with the entries. -/
def items (base : PathBuf) : Listing → List (PathBuf × Entry)
  | nil => []
  | file name content rest => (base ++ [name], .file content) :: rest.items base
  | dir name entries rest =>
      (base ++ [name], .dir) :: entries.items (base ++ [name]) ++ rest.items base

theorem exists_name_of_mem_items {entry : Entry} (h : (p, entry) ∈ listing.items base) :
    ∃ name ∈ listing.names, base ++ [name] <+: p := by
  induction listing generalizing base with
  | nil => cases h
  | file name content rest ih =>
      rcases List.mem_cons.mp h with heq | h
      · obtain ⟨rfl, -⟩ := Prod.mk.inj heq
        exact ⟨name, List.mem_cons_self, List.prefix_refl _⟩
      · rcases ih h with ⟨name', hname, hle⟩
        exact ⟨name', List.mem_cons_of_mem name hname, hle⟩
  | dir name entries rest ihEntries ih =>
      rcases List.mem_append.mp h with h | h
      · refine ⟨name, List.mem_cons_self, ?_⟩
        rcases List.mem_cons.mp h with heq | h
        · obtain ⟨rfl, -⟩ := Prod.mk.inj heq
          exact List.prefix_refl _
        · rcases ihEntries h with ⟨name', -, hle⟩
          exact (List.prefix_append _ _).trans hle
      · rcases ih h with ⟨name', hname, hle⟩
        exact ⟨name', List.mem_cons_of_mem name hname, hle⟩

theorem ne_nil_of_mem_items {entry : Entry} (h : (p, entry) ∈ listing.items base) : p ≠ [] := by
  rcases exists_name_of_mem_items h with ⟨name, -, hle⟩
  rintro rfl
  simpa using hle.length_le

/-- Two names below a directory lead to different paths. -/
theorem name_unique {name name' : String} (h : base ++ [name] <+: p) (h' : base ++ [name'] <+: p) :
    name = name' := by
  have hlength : (base ++ [name]).length = (base ++ [name']).length := by simp
  rcases List.prefix_or_prefix_of_prefix h h' with hle | hle
  · simpa using hle.eq_of_length hlength
  · simpa using (hle.eq_of_length hlength.symm).symm

/-- A path has one entry. -/
theorem exists_mem_items (h : listing ≠ nil) (base : PathBuf) :
    ∃ name entry, (base ++ [name], entry) ∈ listing.items base := by
  cases listing with
  | nil => exact absurd rfl h
  | file name content rest => exact ⟨name, _, List.mem_cons_self⟩
  | dir name entries rest => exact ⟨name, _, List.mem_append_left _ List.mem_cons_self⟩

theorem Distinct.unique {entry entry' : Entry} (hdistinct : listing.Distinct)
    (h : (p, entry) ∈ listing.items base) (h' : (p, entry') ∈ listing.items base) :
    entry = entry' := by
  induction listing generalizing base with
  | nil => cases h
  | file name content rest ih =>
      have hnot : ∀ {entry : Entry}, (base ++ [name], entry) ∉ rest.items base := by
        intro entry hmem
        rcases exists_name_of_mem_items hmem with ⟨name', hname, hle⟩
        exact hdistinct.1 (name_unique (List.prefix_refl _) hle ▸ hname)
      rcases List.mem_cons.mp h with heq | h
      · obtain ⟨rfl, rfl⟩ := Prod.mk.inj heq
        rcases List.mem_cons.mp h' with heq' | h'
        · exact (Prod.mk.inj heq').2.symm
        · exact absurd h' hnot
      · rcases List.mem_cons.mp h' with heq' | h'
        · obtain ⟨rfl, rfl⟩ := Prod.mk.inj heq'
          exact absurd h hnot
        · exact ih hdistinct.2 h h'
  | dir name entries rest ihEntries ih =>
      -- What is at or below the directory is in no other entry.
      have hnot : ∀ {entry : Entry}, base ++ [name] <+: p → (p, entry) ∉ rest.items base := by
        intro entry hbelow hmem
        rcases exists_name_of_mem_items hmem with ⟨name', hname, hle⟩
        exact hdistinct.1 (name_unique hbelow hle ▸ hname)
      have hself : ∀ {entry : Entry}, (base ++ [name], entry) ∉ entries.items (base ++ [name]) := by
        intro entry hmem
        rcases exists_name_of_mem_items hmem with ⟨name', -, hle⟩
        simpa using hle.length_le
      have hbelow : ∀ {entry : Entry}, (p, entry) ∈ entries.items (base ++ [name]) →
          base ++ [name] <+: p := by
        intro entry hmem
        rcases exists_name_of_mem_items hmem with ⟨name', -, hle⟩
        exact (List.prefix_append _ _).trans hle
      rcases List.mem_append.mp h with h | h
      · rcases List.mem_append.mp h' with h' | h'
        · rcases List.mem_cons.mp h with heq | h
          · obtain ⟨rfl, rfl⟩ := Prod.mk.inj heq
            rcases List.mem_cons.mp h' with heq' | h'
            · exact (Prod.mk.inj heq').2.symm
            · exact absurd h' hself
          · rcases List.mem_cons.mp h' with heq' | h'
            · obtain ⟨rfl, rfl⟩ := Prod.mk.inj heq'
              exact absurd h hself
            · exact ihEntries hdistinct.2.1 h h'
        · refine absurd h' (hnot ?_)
          rcases List.mem_cons.mp h with heq | h
          · exact (Prod.mk.inj heq).1 ▸ List.prefix_refl _
          · exact hbelow h
      · rcases List.mem_append.mp h' with h' | h'
        · refine absurd h (hnot ?_)
          rcases List.mem_cons.mp h' with heq | h'
          · exact (Prod.mk.inj heq).1 ▸ List.prefix_refl _
          · exact hbelow h'
        · exact ih hdistinct.2.2 h h'

/-- What lies below a path shows that it is a directory. -/
theorem dir_of_mem_items {name : String} {entry : Entry}
    (h : (p ++ [name], entry) ∈ listing.items base) (hne : p ≠ base) :
    (p, .dir) ∈ listing.items base := by
  induction listing generalizing base with
  | nil => cases h
  | file name' content rest ih =>
      rcases List.mem_cons.mp h with heq | h
      · have hlast := List.append_inj' (Prod.mk.inj heq).1 rfl
        exact absurd hlast.1 hne
      · exact List.mem_cons_of_mem _ (ih h hne)
  | dir name' entries rest ihEntries ih =>
      rcases List.mem_append.mp h with h | h
      · apply List.mem_append_left
        rcases List.mem_cons.mp h with heq | h
        · have hlast := List.append_inj' (Prod.mk.inj heq).1 rfl
          exact absurd hlast.1 hne
        · by_cases heq : p = base ++ [name']
          · rw [heq]
            exact List.mem_cons_self
          · exact List.mem_cons_of_mem _ (ihEntries h heq)
      · exact List.mem_append_right _ (ih h hne)

end Listing

/-! ## What the thread does -/

/-- A path of the original that is passed over, itself or with a directory above. -/
def Skipped (originalPath path : PathBuf) : Prop :=
  ∃ dir, dir ≠ [] ∧ dir <+: path ∧ isWorkspaces originalPath dir = true

/-- An operation that writes the status, which is not that of a complete fork. -/
structure WritesStatus (format : Format Progress) (op : Op) : Prop where
  cases : op = .createDirAll [".oxen"] ∨ ∃ status : ForkStatus Progress,
    status.isComplete = false ∧
      op = .write forkStatusPath (format.encode (toFile format status))

/-- An operation that copies something of the original that is not passed over. -/
def Copies (originalPath : PathBuf) (items : List (PathBuf × Entry)) (op : Op) : Prop :=
  (op.path, op.entry) ∈ items ∧ ¬ Skipped originalPath op.path

theorem mem_writeStatus {status : ForkStatus Progress} (hstatus : status.isComplete = false)
    (h : op ∈ writeStatus format status) : WritesStatus format op := by
  rcases List.mem_pair.mp h with rfl | rfl
  · exact ⟨.inl rfl⟩
  · exact ⟨.inr ⟨status, hstatus, rfl⟩⟩

theorem mem_countEntries {count : ℕ}
    (h : op ∈ (countEntries format originalPath base listing count).1) :
    WritesStatus format op := by
  induction listing generalizing base count with
  | nil => cases h
  | file name content rest ih =>
      rw [countEntries] at h
      split at h
      · exact ih h
      · exact ih h
  | dir name entries rest ihEntries ih =>
      rw [countEntries] at h
      split at h
      · exact ih h
      · simp only [List.mem_append] at h
        rcases h with (h | h) | h
        · exact ihEntries h
        · exact mem_writeStatus rfl h
        · exact ih h

/-- Nothing is passed over on the way to a directory that is entered. -/
def Entered (originalPath base : PathBuf) : Prop :=
  ∀ dir, dir ≠ [] → dir <+: base → isWorkspaces originalPath dir = false

theorem Entered.concat {name : String} (h : Entered originalPath base)
    (hname : ¬ isWorkspaces originalPath (base ++ [name]) = true) :
    Entered originalPath (base ++ [name]) := by
  intro dir hne hle
  rcases List.prefix_concat_iff.mp hle with rfl | hle
  · exact Bool.eq_false_iff.mpr hname
  · exact h dir hne hle

theorem Entered.not_skipped (h : Entered originalPath base) : ¬ Skipped originalPath base := by
  rintro ⟨dir, hne, hle, hworkspaces⟩
  rw [h dir hne hle] at hworkspaces
  cases hworkspaces

theorem mem_copyEntries {totalItems copiedItems : ℕ} (hbase : Entered originalPath base)
    (h : op ∈ (copyEntries format originalPath totalItems base listing copiedItems).1) :
    WritesStatus format op ∨ Copies originalPath (listing.items base) op := by
  have hmono : ∀ {items items' : List (PathBuf × Entry)} {op : Op}, items ⊆ items' →
      (WritesStatus format op ∨ Copies originalPath items op) →
      WritesStatus format op ∨ Copies originalPath items' op :=
    fun hsub => Or.imp_right fun hcopies => ⟨hsub hcopies.1, hcopies.2⟩
  induction listing generalizing base copiedItems with
  | nil => cases h
  | file name content rest ih =>
      rw [copyEntries] at h
      split at h
      · exact hmono (List.subset_cons_self _ _) (ih hbase h)
      · next hname =>
        rcases List.mem_cons.mp h with rfl | h
        · exact .inr ⟨List.mem_cons_self, (hbase.concat hname).not_skipped⟩
        · exact hmono (List.subset_cons_self _ _) (ih hbase h)
  | dir name entries rest ihEntries ih =>
      rw [copyEntries] at h
      split at h
      · exact hmono (List.subset_append_right _ _) (ih hbase h)
      · next hname =>
        simp only [List.mem_cons, List.mem_append] at h
        rcases h with rfl | (h | h) | h
        · exact .inr ⟨List.mem_append_left _ List.mem_cons_self, (hbase.concat hname).not_skipped⟩
        · refine hmono ?_ (ihEntries (hbase.concat hname) h)
          exact List.Subset.trans (List.subset_cons_self _ _) (List.subset_append_left _ _)
        · exact .inl (mem_writeStatus rfl h)
        · exact hmono (List.subset_append_right _ _) (ih hbase h)

/-- Everything that is not passed over is copied. -/
theorem exists_mem_copyEntries {totalItems copiedItems : ℕ} {entry : Entry}
    (h : (p, entry) ∈ listing.items base) (hskipped : ¬ Skipped originalPath p) :
    ∃ op ∈ (copyEntries format originalPath totalItems base listing copiedItems).1,
      op.path = p ∧ op.entry = entry := by
  induction listing generalizing base copiedItems with
  | nil => cases h
  | file name content rest ih =>
      rw [copyEntries]
      rcases List.mem_cons.mp h with heq | h
      · obtain ⟨rfl, rfl⟩ := Prod.mk.inj heq
        rw [if_neg fun hname => hskipped ⟨_, by simp, List.prefix_refl _, hname⟩]
        exact ⟨_, List.mem_cons_self, rfl, rfl⟩
      · split
        · exact ih h
        · rcases @ih base (copiedItems + 1) h with ⟨op, hop, hpath⟩
          exact ⟨op, List.mem_cons_of_mem _ hop, hpath⟩
  | dir name entries rest ihEntries ih =>
      rw [copyEntries]
      rcases List.mem_append.mp h with h | h
      · have hbelow : base ++ [name] <+: p := by
          rcases List.mem_cons.mp h with heq | h
          · exact (Prod.mk.inj heq).1 ▸ List.prefix_refl _
          · rcases Listing.exists_name_of_mem_items h with ⟨name', -, hle⟩
            exact (List.prefix_append _ _).trans hle
        rw [if_neg fun hname => hskipped ⟨_, by simp, hbelow, hname⟩]
        rcases List.mem_cons.mp h with heq | h
        · obtain ⟨rfl, rfl⟩ := Prod.mk.inj heq
          exact ⟨_, List.mem_cons_self, rfl, rfl⟩
        · rcases @ihEntries (base ++ [name]) copiedItems h with ⟨op, hop, hpath⟩
          exact ⟨op, List.mem_cons_of_mem _ (List.mem_append_left _ (List.mem_append_left _ hop)),
            hpath⟩
      · split
        · exact ih h
        · rcases ih h with ⟨op, hop, hpath⟩
          exact ⟨op, List.mem_cons_of_mem _ (List.mem_append_right _ hop), hpath⟩

theorem entered_nil : Entered originalPath [] :=
  fun _ hne hle => absurd (List.prefix_nil.mp hle) hne

theorem mem_copyThread {counted original : Listing}
    (h : op ∈ copyThread format originalPath counted original) :
    WritesStatus format op ∨ Copies originalPath (original.items []) op := by
  simp only [copyThread, countItems, copyDirRecursive, List.mem_append] at h
  rcases h with (h | h) | h | h
  · exact .inl (mem_countEntries h)
  · exact .inl (mem_writeStatus rfl h)
  · exact mem_copyEntries entered_nil h
  · exact .inl (mem_writeStatus rfl h)

theorem exists_mem_copyThread {counted original : Listing} {entry : Entry}
    (h : (p, entry) ∈ original.items []) (hskipped : ¬ Skipped originalPath p) :
    ∃ op ∈ copyThread format originalPath counted original, op.path = p ∧ op.entry = entry := by
  rcases exists_mem_copyEntries h hskipped with ⟨op, hop, hpath⟩
  exact ⟨op, List.mem_append_right _ (List.mem_append_left _ hop), hpath⟩

/-! ## What is seen of a fork -/

/-- A state while operations are carried out: some are done, and the next one may be under way. -/
def Seen (disk : Disk) (ops : List Op) (s : Disk) : Prop :=
  ∃ before after t, ops = before ++ after ∧ run disk before = some t ∧
    (s = t ∨ ∃ op rest length, after = op :: rest ∧ (op.cut length).apply t = some s)

variable (format originalPath) in
/-- The operations of a fork that succeeds. -/
def forkOps (counted original : Listing) : List Op :=
  startFork format ++ copyThread format originalPath counted original ++
    writeStatus format .complete

def noFiles : Disk := fun _ => none

variable (format originalPath) in
/-- A state once an operation of the thread has failed: the error is being written. -/
def AfterFailure (counted original : Listing) (s : Disk) : Prop :=
  ∃ start t error, run noFiles (startFork format) = some start ∧
    Seen start (copyThread format originalPath counted original) t ∧
      Seen t (writeStatus format (.failed error)) s

variable (format originalPath) in
def Visible (counted original : Listing) (s : Disk) : Prop :=
  Seen noFiles (forkOps format originalPath counted original) s ∨
    AfterFailure format originalPath counted original s

variable (format) in
def AnswersComplete (s : Disk) : Prop :=
  ∃ response, getForkStatus format s = .ok response ∧ response.status = "complete"

/-- What the fork leaves out. -/
def Excluded (path : PathBuf) : Prop :=
  workspacesPath <+: path ∨ path = forkStatusPath

variable (format originalPath) in
/-- A fork that is complete has all files, and one that failed is never complete. -/
structure NeverEarly (counted original : Listing) : Prop where
  copied : ∀ s, Visible format originalPath counted original s → AnswersComplete format s →
    ∀ path content, (path, .file content) ∈ original.items [] → ¬ Excluded path →
      s path = some (.file content)
  failed : ∀ s, AfterFailure format originalPath counted original s → ¬ AnswersComplete format s

/-- A complete fork's status is read back, and what is left of another one that is cut off is no text
of a complete fork. -/
structure Format.Lawful (format : Format Progress) : Prop where
  complete : ∃ file, format.decode (format.encode (toFile format .complete)) = some file ∧
    file.status.isComplete = true
  cut : ∀ file length file', format.decode ((format.encode file).take length) = some file' →
    file'.status.isComplete = true → file.status.isComplete = true

/-! ## Reading the status -/

variable (format) in
def ReadsComplete (content : Content) : Prop :=
  ∃ file, format.decode content = some file ∧ file.status.isComplete = true

theorem answersComplete_iff : AnswersComplete format s ↔
    ∃ content, s forkStatusPath = some (.file content) ∧ ReadsComplete format content := by
  have htext : ∀ status : ForkStatus Progress, status.text = "complete" ↔
      status.isComplete = true := by
    intro status
    cases status <;> simp [ForkStatus.text, ForkStatus.isComplete]
  unfold AnswersComplete getForkStatus readStatus
  cases hstatus : s forkStatusPath with
  | none => simp
  | some entry =>
      cases entry with
      | dir => simp
      | file content =>
          simp only [Option.some.injEq, Entry.file.injEq, exists_eq_left', ReadsComplete]
          cases hdecode : format.decode content with
          | none => simp
          | some file =>
              rcases file with ⟨status, progress, error⟩
              cases status <;> simp [ForkStatus.text, ForkStatus.isComplete]

/-! ## Silent operations -/

variable (format) in
/-- Nothing that the operation leaves, cut off or not, is read as a complete fork. -/
def Silent (op : Op) : Prop :=
  ∀ content, op = .write forkStatusPath content →
    ∀ length, ¬ ReadsComplete format (content.take length)

theorem WritesStatus.silent (hformat : format.Lawful) (h : WritesStatus format op) :
    Silent format op := by
  rintro content rfl length ⟨file, hdecode, hcomplete⟩
  rcases h.cases with heq | ⟨status, hstatus, heq⟩
  · cases heq
  · obtain ⟨-, rfl⟩ := Op.write.inj heq
    have hfile := hformat.cut _ length file hdecode hcomplete
    cases status with
    | complete => cases hstatus
    | started | counting _ | inProgress _ | failed _ => cases hfile

theorem run_silent (h : run disk ops = some s) (hops : ∀ op ∈ ops, Silent format op)
    (hdisk : ¬ AnswersComplete format disk) : ¬ AnswersComplete format s := by
  rw [answersComplete_iff] at hdisk ⊢
  rintro ⟨content, hcontent, hreads⟩
  rcases run_cases h forkStatusPath with hsame | ⟨op, hop, hpath, hentry⟩
  · exact hdisk ⟨content, hsame ▸ hcontent, hreads⟩
  · rw [hcontent] at hentry
    have hwrite : op = .write forkStatusPath content := by
      cases op with
      | createDirAll path => cases hentry
      | write path content' =>
          cases hentry
          cases hpath
          rfl
    have hsilent := hops op hop content hwrite content.length
    rw [List.take_length] at hsilent
    exact hsilent hreads

theorem Silent.cut (h : Silent format op) (length : ℕ) : Silent format (op.cut length) := by
  rintro content hop length'
  cases op with
  | createDirAll path => cases hop
  | write path content' =>
      obtain ⟨rfl, rfl⟩ := Op.write.inj hop
      rw [List.take_take]
      exact h content' rfl _

theorem Seen.silent (h : Seen disk ops s) (hops : ∀ op ∈ ops, Silent format op)
    (hdisk : ¬ AnswersComplete format disk) : ¬ AnswersComplete format s := by
  rcases h with ⟨before, after, t, rfl, hrun, hs⟩
  have ht := run_silent hrun (fun op hop => hops op (List.mem_append_left _ hop)) hdisk
  rcases hs with rfl | ⟨op, rest, length, rfl, hs⟩
  · exact ht
  · have hop := hops op (List.mem_append_right _ List.mem_cons_self)
    have hone : run t [op.cut length] = some s := by
      rw [run_cons, hs]
      rfl
    refine run_silent hone (fun op' hop' => ?_) ht
    rw [List.mem_singleton.mp hop']
    exact hop.cut length

theorem Seen.of_ne (h : Seen disk ops s) (hne : ∀ op ∈ ops, op.path ≠ p) : s p = disk p := by
  rcases h with ⟨before, after, t, rfl, hrun, hs⟩
  have ht := run_of_ne hrun fun op hop => hne op (List.mem_append_left _ hop)
  rcases hs with rfl | ⟨op, rest, length, rfl, hs⟩
  · exact ht
  · have hop := hne op (List.mem_append_right _ List.mem_cons_self)
    exact (Op.apply_of_ne hs (by rwa [Op.path_cut])).trans ht

/-- What is seen of two parts is seen of the first one, or it is done. -/
theorem Seen.append {ops' : List Op} (h : Seen disk (ops ++ ops') s) :
    Seen disk ops s ∨ ∃ t, run disk ops = some t ∧ Seen t ops' s := by
  rcases h with ⟨before, after, t, hops, hrun, hs⟩
  rcases List.append_eq_append_iff.mp hops with ⟨mid, rfl, rfl⟩ | ⟨mid, rfl, rfl⟩
  · rw [run_append] at hrun
    rcases Option.bind_eq_some_iff.mp hrun with ⟨t', ht', hrun⟩
    exact .inr ⟨t', ht', mid, after, t, rfl, hrun, hs⟩
  · cases mid with
    | nil =>
        rw [List.append_nil]
        exact .inr ⟨t, hrun, [], ops', t, rfl, rfl, hs⟩
    | cons op mid =>
        refine .inl ⟨before, op :: mid, t, rfl, hrun, ?_⟩
        rcases hs with rfl | ⟨op', rest, length, heq, hs⟩
        · exact .inl rfl
        · obtain ⟨rfl, -⟩ := List.cons.inj heq
          exact .inr ⟨op, mid, length, rfl, hs⟩

/-! ## Files and directories in each other's place -/

/-- Something of the original cannot be copied for what the status has at its place: a file for the
directory of the status, or what is below a directory for its file. -/
def Blocked (items : List (PathBuf × Entry)) : Prop :=
  (∃ content, ([".oxen"], .file content) ∈ items) ∨
    ∃ name entry, (forkStatusPath ++ [name], entry) ∈ items

theorem not_skipped_status {dir : PathBuf} (h : dir <+: forkStatusPath) :
    ¬ Skipped originalPath dir := by
  rintro ⟨dir', hne, hle, hworkspaces⟩
  have hname : ∃ rest name, dir' = rest ++ [name] ∧ name ≠ "workspaces" := by
    have hmem : dir' ∈ [[], [".oxen"], forkStatusPath] :=
      (List.mem_inits dir' forkStatusPath).mpr (hle.trans h)
    simp only [List.mem_cons, List.not_mem_nil, or_false] at hmem
    rcases hmem with rfl | rfl | rfl
    · exact absurd rfl hne
    · exact ⟨[], ".oxen", rfl, by decide⟩
    · exact ⟨[".oxen"], "fork_status.toml", rfl, by decide⟩
  rcases hname with ⟨rest, name, rfl, hname⟩
  rcases List.isSuffixOf_iff_suffix.mp hworkspaces with ⟨front, hfront⟩
  have hlast : front ++ [".oxen"] ++ ["workspaces"] = originalPath ++ rest ++ [name] := by
    rw [List.append_assoc originalPath, ← hfront, List.append_assoc]
    rfl
  exact hname (by simpa using (List.append_inj' hlast rfl).2.symm)

/-- The workspaces are in a directory `.oxen`, which the status is not. -/
theorem not_skipped_below_status {name : String} :
    ¬ Skipped originalPath (forkStatusPath ++ [name]) := by
  rintro ⟨dir, hne, hle, hworkspaces⟩
  rcases List.prefix_concat_iff.mp hle with rfl | hle
  · rcases List.isSuffixOf_iff_suffix.mp hworkspaces with ⟨front, hfront⟩
    have hlast : front ++ [".oxen", "workspaces"] =
        (originalPath ++ [".oxen"]) ++ ["fork_status.toml", name] := by
      rw [← show workspacesPath = [".oxen", "workspaces"] from rfl, hfront, List.append_assoc]
      rfl
    exact absurd (List.append_inj' hlast rfl).2 (by simp)
  · exact not_skipped_status (List.prefix_refl forkStatusPath) ⟨dir, hne, hle, hworkspaces⟩

/-- A file does not replace a directory. -/
theorem run_write_dir (hdir : disk p = some .dir) (hop : .write p content ∈ ops) :
    run disk ops = none := by
  rcases List.append_of_mem hop with ⟨before, after, rfl⟩
  rw [Option.eq_none_iff_forall_ne_some]
  intro s hs
  rw [run_append] at hs
  rcases Option.bind_eq_some_iff.mp hs with ⟨t, ht, hs⟩
  rw [run_cons] at hs
  rcases Option.bind_eq_some_iff.mp hs with ⟨t', ht', -⟩
  exact (Op.apply_write ht').1 (run_keeps_dir ht hdir)

/-- The path is a file with nothing below it. -/
def IsFile (p : PathBuf) (disk : Disk) : Prop :=
  (∃ content, disk p = some (.file content)) ∧ ∀ name, disk (p ++ [name]) = none

theorem IsFile.not_inDir {name : String} (h : IsFile p disk) : ¬ Op.InDir disk (p ++ [name]) := by
  rcases h.1 with ⟨content, hfile⟩
  rintro (hnil | hdir)
  · simp at hnil
  · rw [List.dropLast_concat, hfile] at hdir
    cases hdir

/-- Nothing is made below a file. -/
theorem IsFile.path_ne {name : String} (h : IsFile p disk) (hop : op.apply disk = some s) :
    op.path ≠ p ++ [name] := by
  intro hpath
  cases op with
  | createDirAll path =>
      obtain rfl : path = p ++ [name] := hpath
      rcases Op.apply_createDirAll hop with ⟨-, hsome⟩ | ⟨-, hin, -⟩
      · rw [h.2 name] at hsome
        cases hsome
      · exact h.not_inDir hin
  | write path content =>
      obtain rfl : path = p ++ [name] := hpath
      exact h.not_inDir (Op.apply_write hop).2.1

theorem IsFile.apply (h : IsFile p disk) (hop : op.apply disk = some s) : IsFile p s := by
  constructor
  · rcases h.1 with ⟨content, hfile⟩
    rcases Op.apply_keeps_kind hop hfile with ⟨entry, hentry, hkind⟩
    cases entry with
    | dir => cases hkind.mp rfl
    | file content' => exact ⟨content', hentry⟩
  · intro name
    rw [Op.apply_of_ne hop (h.path_ne hop), h.2 name]

theorem IsFile.run (h : IsFile p disk) (hops : run disk ops = some s) : IsFile p s := by
  induction ops generalizing disk with
  | nil =>
      cases hops
      exact h
  | cons op ops ih =>
      rw [run_cons] at hops
      rcases Option.bind_eq_some_iff.mp hops with ⟨t, ht, hrun⟩
      exact ih (h.apply ht) hrun

theorem IsFile.run_below {name : String} (h : IsFile p disk) (hop : op ∈ ops)
    (hpath : op.path = p ++ [name]) : Fork.run disk ops = none := by
  rcases List.append_of_mem hop with ⟨before, after, rfl⟩
  rw [Option.eq_none_iff_forall_ne_some]
  intro s hs
  rw [run_append] at hs
  rcases Option.bind_eq_some_iff.mp hs with ⟨t, ht, hs⟩
  rw [run_cons] at hs
  rcases Option.bind_eq_some_iff.mp hs with ⟨t', ht', -⟩
  exact (h.run ht).path_ne ht' hpath

/-! ## When a fork is never complete too early -/

/-- A directory with every name once. -/
structure Directory where
  listing : Listing
  distinct : listing.Distinct

def Directory.items (original : Directory) : List (PathBuf × Entry) :=
  original.listing.items []

variable (format originalPath) in
/-- No part of the original's own status file tells of a complete fork, and only the workspaces are
passed over. -/
structure CopiesAll (original : Directory) : Prop where
  status : ∀ content length, (forkStatusPath, .file content) ∈ original.items →
    ¬ ReadsComplete format (content.take length)
  covered : Blocked original.items ∨ ∀ path content, (path, .file content) ∈ original.items →
    ¬ Excluded path → ¬ Skipped originalPath path

section

variable {original : Directory} {counted : Listing}

variable (original) in
/-- A path is that of a directory of the fork. -/
def IsDir (path : PathBuf) : Prop :=
  path = [] ∨ path = [".oxen"] ∨ ((path, .dir) ∈ original.items ∧ path ≠ forkStatusPath)

variable (original) in
/-- A new repository while the original is copied. -/
structure Begun (disk : Disk) : Prop where
  root : disk [] = some .dir
  oxen : disk [".oxen"] = some .dir
  status : ∃ content, disk forkStatusPath = some (.file content)
  dirs : ∀ path, disk path = some .dir → IsDir original path
  files : ∀ path content, disk path = some (.file content) → ¬ IsDir original path

theorem not_isDir_status : ¬ IsDir original forkStatusPath := by
  rintro (h | h | h)
  · cases h
  · cases h
  · exact h.2 rfl

theorem exists_start : ∃ start, run noFiles (startFork format) = some start ∧
    Begun original start ∧ IsFile forkStatusPath start ∧ ¬ AnswersComplete format noFiles := by
  have hstart : run noFiles (startFork format) = some (Function.update
      (Function.update (Function.update noFiles [] (some .dir)) [".oxen"] (some .dir))
      forkStatusPath (some (.file (format.encode (toFile format (.counting 0)))))) := rfl
  refine ⟨_, hstart, ⟨rfl, rfl, ⟨_, rfl⟩, ?_, ?_⟩, ⟨⟨_, rfl⟩, ?_⟩, ?_⟩
  · intro path hdir
    simp only [Function.update_apply] at hdir
    split_ifs at hdir with hstatus hoxen hroot
    · cases hdir
    · exact .inr (.inl hoxen)
    · exact .inl hroot
    · cases hdir
  · intro path content hfile
    simp only [Function.update_apply] at hfile
    split_ifs at hfile with hstatus hoxen hroot
    · exact hstatus ▸ not_isDir_status
    · cases hfile
    · cases hfile
    · cases hfile
  · intro name
    simp [forkStatusPath, noFiles]
  · rw [answersComplete_iff]
    rintro ⟨content, hcontent, -⟩
    cases hcontent

theorem silent_startFork (hformat : format.Lawful) (h : op ∈ startFork format) :
    Silent format op := by
  rcases List.mem_cons.mp h with rfl | h
  · intro content hop
    cases hop
  · exact (mem_writeStatus rfl h).silent hformat

theorem silent_thread (hformat : format.Lawful) (hcopies : CopiesAll format originalPath original)
    (h : op ∈ copyThread format originalPath counted original.listing) : Silent format op := by
  rcases mem_copyThread h with hstatus | hcopied
  · exact hstatus.silent hformat
  · rintro content rfl length
    exact hcopies.status content length hcopied.1

/-- A fork with something in the way of the status fails. -/
theorem run_blocked (h : Blocked original.items) : run noFiles
    (startFork format ++ copyThread format originalPath counted original.listing) = none := by
  rcases @exists_start _ format original with ⟨start, hstart, hbegun, hfile, -⟩
  rw [run_append, hstart, Option.bind_some]
  rcases h with ⟨content, hmem⟩ | ⟨name, entry, hmem⟩
  · rcases @exists_mem_copyThread _ format originalPath _ counted _ _ hmem
      (not_skipped_status ⟨["fork_status.toml"], rfl⟩) with ⟨op, hop, hpath, hentry⟩
    have hwrite : op = .write [".oxen"] content := Op.ext hpath hentry
    exact run_write_dir hbegun.oxen (hwrite ▸ hop)
  · rcases @exists_mem_copyThread _ format originalPath _ counted _ _ hmem
      not_skipped_below_status with ⟨op, hop, hpath, -⟩
    exact hfile.run_below hop hpath

namespace Begun

theorem write (content : Content) (h : Begun original disk) (hdir : ¬ IsDir original p)
    (hin : Op.InDir disk p) :
    ∃ s, (Op.write p content).apply disk = some s ∧ Begun original s := by
  have hcan : disk p ≠ some .dir := fun heq => hdir (h.dirs p heq)
  have hwrite : (Op.write p content).apply disk =
      some (Function.update disk p (some (.file content))) := if_pos ⟨hcan, hin⟩
  refine ⟨_, hwrite, ?_, ?_, ?_, ?_, ?_⟩
  · exact Op.apply_keeps_dir hwrite h.root
  · exact Op.apply_keeps_dir hwrite h.oxen
  · by_cases heq : forkStatusPath = p
    · exact ⟨content, by rw [heq, Function.update_self]⟩
    · rw [Function.update_of_ne heq]
      exact h.status
  · intro path hpath
    by_cases heq : path = p
    · subst heq
      rw [Function.update_self] at hpath
      cases hpath
    · rw [Function.update_of_ne heq] at hpath
      exact h.dirs path hpath
  · intro path content' hpath
    by_cases heq : path = p
    · exact heq ▸ hdir
    · rw [Function.update_of_ne heq] at hpath
      exact h.files path content' hpath

/-- Nothing happens if the directory is at the place of the status, as that is a file already. -/
theorem createDirAll (h : Begun original disk) (hdir : IsDir original p ∨ p = forkStatusPath)
    (hin : Op.InDir disk p) : ∃ s, (Op.createDirAll p).apply disk = some s ∧ Begun original s ∧
      (p ≠ forkStatusPath → s p = some .dir) := by
  cases hp : disk p with
  | some entry =>
      refine ⟨disk, if_pos (by rw [hp]; rfl), h, fun hne => ?_⟩
      cases entry with
      | dir => exact hp
      | file content => exact absurd (hdir.resolve_right hne) (h.files p content hp)
  | none =>
      have hne : p ≠ forkStatusPath := by
        rintro rfl
        rcases h.status with ⟨content, hfile⟩
        cases hp.symm.trans hfile
      have hnew : (Op.createDirAll p).apply disk =
          some (Function.update disk p (some .dir)) := by
        rw [Op.apply, if_neg (by simp [hp]), if_pos hin]
      refine ⟨_, hnew, ⟨?_, ?_, ?_, ?_, ?_⟩, fun _ => Function.update_self _ _ _⟩
      · exact Op.apply_keeps_dir hnew h.root
      · exact Op.apply_keeps_dir hnew h.oxen
      · rw [Function.update_of_ne hne.symm]
        exact h.status
      · intro path hpath
        by_cases heq : path = p
        · exact heq ▸ hdir.resolve_right hne
        · rw [Function.update_of_ne heq] at hpath
          exact h.dirs path hpath
      · intro path content hpath
        by_cases heq : path = p
        · subst heq
          rw [Function.update_self] at hpath
          cases hpath
        · rw [Function.update_of_ne heq] at hpath
          exact h.files path content hpath

theorem writeStatus {status : ForkStatus Progress} (h : Begun original disk) :
    ∃ s, run disk (writeStatus format status) = some s ∧ Begun original s := by
  rcases h.createDirAll (p := [".oxen"]) (.inl (.inr (.inl rfl))) (.inr h.root) with
    ⟨t, ht, hbegun, -⟩
  rcases hbegun.write (format.encode (toFile format status)) not_isDir_status
    (.inr hbegun.oxen) with ⟨s, hs, hbegun⟩
  refine ⟨s, ?_, hbegun⟩
  rw [Fork.writeStatus, run_cons, ht, Option.bind_some, run_cons, hs]
  rfl

theorem cons (ht : op.apply disk = some t)
    (h : ∃ s, run t ops = some s ∧ Begun original s) :
    ∃ s, run disk (op :: ops) = some s ∧ Begun original s := by
  rw [run_cons, ht]
  exact h

/-- One part after the other succeeds. -/
theorem append (hbefore : ∃ t, run disk before = some t ∧ Begun original t)
    (hafter : ∀ t, run disk before = some t → Begun original t →
      ∃ s, run t after = some s ∧ Begun original s) :
    ∃ s, run disk (before ++ after) = some s ∧ Begun original s := by
  rcases hbefore with ⟨t, ht, hbegun⟩
  rcases hafter t ht hbegun with ⟨s, hs, hbegun⟩
  exact ⟨s, by rw [run_append, ht]; exact hs, hbegun⟩

theorem countEntries {count : ℕ} (h : Begun original disk) :
    ∃ s, run disk (countEntries format originalPath base listing count).1 = some s ∧
      Begun original s := by
  induction listing generalizing base count disk with
  | nil => exact ⟨disk, rfl, h⟩
  | file name content rest ih =>
      rw [Fork.countEntries]
      split
      · exact ih h
      · exact ih h
  | dir name entries rest ihEntries ih =>
      rw [Fork.countEntries]
      split
      · exact ih h
      · refine append (append (ihEntries h) fun t _ ht => ht.writeStatus) fun t _ ht => ih ht

/-- Everything is copied into directories that are there. -/
theorem copyEntries {totalItems copiedItems : ℕ} (h : Begun original disk)
    (hblocked : ¬ Blocked original.items) (hitems : listing.items base ⊆ original.items)
    (hbase : listing ≠ .nil → disk base = some .dir) :
    ∃ s, run disk (copyEntries format originalPath totalItems base listing copiedItems).1 = some s ∧
      Begun original s := by
  induction listing generalizing base copiedItems disk with
  | nil => exact ⟨disk, rfl, h⟩
  | file name content rest ih =>
      rw [Listing.items, List.cons_subset] at hitems
      have hdir := hbase Listing.noConfusion
      have hin : Op.InDir disk (base ++ [name]) := .inr (by rw [List.dropLast_concat, hdir])
      rw [Fork.copyEntries]
      split
      · exact ih h hitems.2 fun _ => hdir
      · have hfile : ¬ IsDir original (base ++ [name]) := by
          rintro (hnil | hoxen | hisDir)
          · simp at hnil
          · exact hblocked (.inl ⟨content, hoxen ▸ hitems.1⟩)
          · cases original.distinct.unique hitems.1 hisDir.1
        rcases h.write content hfile hin with ⟨t, ht, hbegun⟩
        exact cons ht (ih hbegun hitems.2 fun _ => Op.apply_keeps_dir ht hdir)
  | dir name entries rest ihEntries ih =>
      rw [Listing.items, List.append_subset, List.cons_subset] at hitems
      rcases hitems with ⟨⟨hself, hentries⟩, hrest⟩
      have hdir := hbase Listing.noConfusion
      have hin : Op.InDir disk (base ++ [name]) := .inr (by rw [List.dropLast_concat, hdir])
      rw [Fork.copyEntries]
      split
      · exact ih h hrest fun _ => hdir
      · have hplace : IsDir original (base ++ [name]) ∨ base ++ [name] = forkStatusPath := by
          by_cases heq : base ++ [name] = forkStatusPath
          · exact .inr heq
          · exact .inl (.inr (.inr ⟨hself, heq⟩))
        rcases h.createDirAll hplace hin with ⟨t, ht, hbegun, hmade⟩
        -- What is below the status' place would block the fork.
        have hbelow : entries ≠ .nil → t (base ++ [name]) = some .dir := by
          intro hne
          apply hmade
          intro heq
          rcases entries.exists_mem_items hne (base ++ [name]) with ⟨name', entry, hmem⟩
          exact hblocked (.inr ⟨name', entry, heq ▸ hentries hmem⟩)
        refine cons ht (append (append (ihEntries hbegun hentries hbelow) ?_) ?_)
        · exact fun t' _ ht' => ht'.writeStatus
        · intro t' hrun ht'
          exact ih ht' hrest fun _ => run_keeps_dir hrun (Op.apply_keeps_dir ht hdir)

end Begun

/-- A fork with nothing in the way of its status succeeds. -/
theorem exists_run (hblocked : ¬ Blocked original.items) :
    ∃ s, run noFiles (forkOps format originalPath counted original.listing) = some s := by
  rcases @exists_start _ format original with ⟨start, hstart, hbegun, -⟩
  have hthread : ∃ t, run noFiles (startFork format ++ copyThread format originalPath counted
      original.listing) = some t ∧ Begun original t := by
    refine Begun.append ⟨start, hstart, hbegun⟩ fun t _ ht => ?_
    refine Begun.append (Begun.append ht.countEntries fun t _ ht => ht.writeStatus) fun t _ ht => ?_
    refine Begun.append ?_ fun t _ ht => ht.writeStatus
    exact ht.copyEntries hblocked (List.Subset.refl _) fun _ => ht.root
  rcases Begun.append hthread fun _ _ ht => @Begun.writeStatus _ format _ _ .complete ht with
    ⟨s, hs, -⟩
  exact ⟨s, hs⟩

/-- A copied status file is seen as the fork's own, and the copy may fail then. -/
theorem status_of_neverEarly (h : NeverEarly format originalPath counted original.listing)
    (content : Content) (length : ℕ) (hmem : (forkStatusPath, .file content) ∈ original.items) :
    ¬ ReadsComplete format (content.take length) := by
  intro hreads
  have hblocked : ¬ Blocked original.items := by
    rintro (⟨content', hoxen⟩ | ⟨name, entry, hbelow⟩)
    · have hparent : ([".oxen"], .dir) ∈ original.items :=
        Listing.dir_of_mem_items (p := [".oxen"]) hmem (by decide)
      cases original.distinct.unique hoxen hparent
    · cases original.distinct.unique hmem (Listing.dir_of_mem_items hbelow (by decide))
  rcases @exists_mem_copyThread _ format originalPath _ counted _ _ hmem
    (not_skipped_status (List.prefix_refl _)) with ⟨op, hop, hpath, hentry⟩
  obtain rfl : op = .write forkStatusPath content := Op.ext hpath hentry
  rcases List.append_of_mem hop with ⟨before, after, hthread⟩
  rcases @exists_run _ format originalPath _ counted hblocked with ⟨final, hfinal⟩
  rw [forkOps, List.append_assoc, run_append, hthread] at hfinal
  rcases Option.bind_eq_some_iff.mp hfinal with ⟨start, hstart, hfinal⟩
  rw [List.append_assoc, run_append] at hfinal
  rcases Option.bind_eq_some_iff.mp hfinal with ⟨t, ht, hfinal⟩
  rw [List.cons_append, run_cons] at hfinal
  rcases Option.bind_eq_some_iff.mp hfinal with ⟨t', ht', -⟩
  rcases Op.exists_apply_cut ht' length with ⟨s, hs⟩
  refine h.failed s ⟨start, s, "", hstart, ?_, [], _, s, rfl, rfl, .inl rfl⟩ ?_
  · exact ⟨before, _, t, hthread, ht, .inr ⟨_, after, length, rfl, hs⟩⟩
  · exact answersComplete_iff.mpr ⟨content.take length, Op.apply_write_self hs, hreads⟩

/-- What is passed over is missing in the end. -/
theorem covered_of_neverEarly (hformat : format.Lawful)
    (h : NeverEarly format originalPath counted original.listing)
    (hblocked : ¬ Blocked original.items) (path : PathBuf) (content : Content)
    (hmem : (path, .file content) ∈ original.items) (hexcluded : ¬ Excluded path) :
    ¬ Skipped originalPath path := by
  intro hskipped
  rcases @exists_run _ format originalPath _ counted hblocked with ⟨s, hs⟩
  have hcomplete : AnswersComplete format s := by
    have hlast := hs
    rw [forkOps, run_append] at hlast
    rcases Option.bind_eq_some_iff.mp hlast with ⟨t, -, hlast⟩
    have hstatus := @run_of_mem forkStatusPath t s _ (format.encode (toFile format .complete)) hlast
      (by simp [writeStatus]) (by
        intro op hop hpath
        rcases List.mem_pair.mp hop with rfl | rfl
        · cases hpath
        · rfl)
    exact answersComplete_iff.mpr ⟨_, hstatus, hformat.complete⟩
  have hvisible : Visible format originalPath counted original.listing s :=
    .inl ⟨_, [], s, (List.append_nil _).symm, hs, .inl rfl⟩
  have hfile := h.copied s hvisible hcomplete path content hmem hexcluded
  have hnone : s path = noFiles path := by
    refine run_of_ne hs fun op hop heq => ?_
    have hstatus : path ≠ forkStatusPath := fun heq => hexcluded (.inr heq)
    have hoxen : path ≠ [".oxen"] := by
      rintro rfl
      exact hblocked (.inl ⟨content, hmem⟩)
    simp only [forkOps, List.mem_append] at hop
    rcases hop with (hop | hop) | hop
    · rcases List.mem_cons.mp hop with rfl | hop
      · exact Listing.ne_nil_of_mem_items hmem heq.symm
      · rcases List.mem_pair.mp hop with rfl | rfl
        · exact hoxen heq.symm
        · exact hstatus heq.symm
    · rcases mem_copyThread hop with hwrites | hcopied
      · rcases hwrites.cases with rfl | ⟨status, -, rfl⟩
        · exact hoxen heq.symm
        · exact hstatus heq.symm
      · exact hcopied.2 (heq ▸ hskipped)
    · rcases List.mem_pair.mp hop with rfl | rfl
      · exact hoxen heq.symm
      · exact hstatus heq.symm
  rw [hnone] at hfile
  cases hfile

theorem not_complete_of_copiesAll (hformat : format.Lawful)
    (h : CopiesAll format originalPath original)
    (hs : AfterFailure format originalPath counted original.listing s) :
    ¬ AnswersComplete format s := by
  rcases hs with ⟨start, t, error, hstart, ht, hs⟩
  rcases @exists_start _ format original with ⟨-, -, -, -, hempty⟩
  have hstarted := run_silent hstart (fun op hop => silent_startFork hformat hop) hempty
  have hcopied := ht.silent (fun op hop => silent_thread hformat h hop) hstarted
  exact hs.silent (fun op hop => (mem_writeStatus rfl hop).silent hformat) hcopied

theorem copied_of_copiesAll (hformat : format.Lawful) (h : CopiesAll format originalPath original)
    (hs : Visible format originalPath counted original.listing s) (hcomplete : AnswersComplete format s)
    {path : PathBuf} (hmem : (path, .file content) ∈ original.items)
    (hexcluded : ¬ Excluded path) : s path = some (.file content) := by
  rcases hs with hs | hs
  case inr => exact absurd hcomplete (not_complete_of_copiesAll hformat h hs)
  rcases hs.append with hs | ⟨t, ht, hs⟩
  · -- Before the fork is complete every operation is silent.
    rcases @exists_start _ format original with ⟨-, -, -, -, hempty⟩
    refine absurd hcomplete (hs.silent (fun op hop => ?_) hempty)
    rcases List.mem_append.mp hop with hop | hop
    · exact silent_startFork hformat hop
    · exact silent_thread hformat h hop
  · have hblocked : ¬ Blocked original.items := by
      intro hblocked
      rw [run_blocked hblocked] at ht
      cases ht
    have hstatus : path ≠ forkStatusPath := fun heq => hexcluded (.inr heq)
    have hoxen : path ≠ [".oxen"] := by
      rintro rfl
      exact hblocked (.inl ⟨content, hmem⟩)
    have hskipped := h.covered.resolve_left hblocked path content hmem hexcluded
    rcases @exists_mem_copyThread _ format originalPath _ counted _ _ hmem hskipped with
      ⟨op, hop, hpath, hentry⟩
    obtain rfl : op = .write path content := Op.ext hpath hentry
    rw [hs.of_ne fun op' hop' heq => ?_]
    · refine run_of_mem ht (List.mem_append_right _ hop) fun op' hop' hpath => ?_
      rcases List.mem_append.mp hop' with hop' | hop'
      · rcases List.mem_cons.mp hop' with rfl | hop'
        · exact absurd hpath.symm (Listing.ne_nil_of_mem_items hmem)
        · rcases List.mem_pair.mp hop' with rfl | rfl
          · exact absurd hpath.symm hoxen
          · exact absurd hpath.symm hstatus
      · rcases mem_copyThread hop' with hwrites | hcopied
        · rcases hwrites.cases with rfl | ⟨status, -, rfl⟩
          · exact absurd hpath.symm hoxen
          · exact absurd hpath.symm hstatus
        · have hsame := original.distinct.unique (hpath ▸ hcopied.1) hmem
          exact Op.ext hpath hsame
    · rcases List.mem_pair.mp hop' with rfl | rfl
      · exact hoxen heq.symm
      · exact hstatus heq.symm

end

/-- A fork is never complete too early if and only if no part of the original's own status file tells
of a complete fork and nothing but its workspaces is passed over. -/
theorem neverEarly_iff (format : Format Progress) (hformat : format.Lawful)
    (originalPath : PathBuf) (counted : Listing) (original : Directory) :
    NeverEarly format originalPath counted original.listing ↔
      CopiesAll format originalPath original := by
  constructor
  · intro h
    refine ⟨status_of_neverEarly h, ?_⟩
    by_cases hblocked : Blocked original.items
    · exact .inl hblocked
    · exact .inr (covered_of_neverEarly hformat h hblocked)
  · intro h
    exact ⟨fun s hs hcomplete path content hmem hexcluded =>
        copied_of_copiesAll hformat h hs hcomplete hmem hexcluded,
      fun s hs => not_complete_of_copiesAll hformat h hs⟩

namespace ForkExample

def completeText : Content := utf8 "status = \"Complete\"\n"

def startedText : Content := utf8 "status = \"Started\"\n"

/-- Texts as they stand in the file. Only those of two statuses are read here. -/
def toml : Format ℕ where
  ofCount count := count
  toCount progress := progress
  percent copiedItems totalItems := copiedItems * 100 / totalItems
  zero := 0
  encode file :=
    match file.status with
    | .complete => completeText
    | .started => startedText
    | .counting count => utf8 "progress = " ++ utf8 (toString count)
    | .inProgress progress => utf8 "progress = " ++ utf8 (toString progress)
    | .failed error => utf8 "error = " ++ utf8 error
  decode content :=
    if content = completeText then some { status := .complete }
    else if content = startedText then some { status := .started }
    else none

theorem lawful : toml.Lawful where
  complete := ⟨{ status := .complete }, rfl, rfl⟩
  cut := by
    intro file length file' hdecode hcomplete
    have htext : (toml.encode file).take length = completeText := by
      change (if (toml.encode file).take length = completeText then
        some ({ status := .complete } : ForkStatusFile ℕ)
        else if (toml.encode file).take length = startedText then some { status := .started }
        else none) = some file' at hdecode
      split_ifs at hdecode with hfirst hsecond
      · exact hfirst
      · cases hdecode
        cases hcomplete
    have hfirst : ∀ b rest, toml.encode file = b :: rest → b = 115 := by
      intro b rest hencode
      rw [hencode] at htext
      cases length with
      | zero =>
          have hempty : [] ≠ completeText := by decide
          exact absurd htext hempty
      | succ length =>
          have htext' : b :: rest.take length = 115 :: completeText.tail := htext
          exact (List.cons.inj htext').1
    rcases file with ⟨status, progress, error⟩
    cases status with
    | complete => rfl
    | started =>
        have hlength := congrArg List.length htext
        rw [List.length_take] at hlength
        have hshort : (toml.encode { status := .started, progress, error }).length = 19 :=
          show startedText.length = 19 by decide
        have hlong : completeText.length = 20 := by decide
        omega
    | counting count => exact absurd (hfirst 112 _ rfl) (by decide)
    | inProgress progress' => exact absurd (hfirst 112 _ rfl) (by decide)
    | failed error' => exact absurd (hfirst 101 _ rfl) (by decide)

/-- A repository that was itself forked before. -/
def forked : Directory where
  listing := .dir ".oxen" (.file "fork_status.toml" completeText .nil) (.file "data" [1] .nil)
  distinct := by simp [Listing.Distinct, Listing.names]

/-- A repository with another one below. -/
def nested : Directory where
  listing := .dir "sub" (.dir ".oxen" (.file "workspaces" [1] .nil) .nil) .nil
  distinct := by simp [Listing.Distinct, Listing.names]

end ForkExample

open ForkExample in
theorem neverEarly_iff_nested :
    NeverEarly toml ["srv", "repo"] .nil nested.listing ↔
      CopiesAll toml ["srv", "repo"] nested :=
  neverEarly_iff toml lawful ["srv", "repo"] .nil nested

open ForkExample in
/-- The status of a fork that is copied is taken for the new one's, and files in the workspaces of a
repository below are missing in the end. -/
theorem not_neverEarly :
    ¬ NeverEarly toml ["srv", "repo"] .nil forked.listing ∧
      ¬ NeverEarly toml ["srv", "repo"] .nil nested.listing := by
  constructor
  · intro h
    refine @status_of_neverEarly _ toml ["srv", "repo"] forked .nil h completeText
      completeText.length (by decide) ?_
    rw [List.take_length]
    have hdecode : toml.decode completeText = some { status := .complete } := by
      simp only [toml, if_true]
    exact ⟨_, hdecode, rfl⟩
  · intro h
    have hblocked : ¬ Blocked nested.items := by
      rintro (⟨content, hmem⟩ | ⟨name, entry, hmem⟩)
      · simp [Directory.items, nested, Listing.items] at hmem
      · simp [Directory.items, nested, Listing.items, forkStatusPath] at hmem
    refine @covered_of_neverEarly _ toml ["srv", "repo"] nested .nil lawful h hblocked
      ["sub", ".oxen", "workspaces"] [1] (by decide) ?_
      ⟨["sub", ".oxen", "workspaces"], by decide, List.prefix_refl _, by decide⟩
    rintro (hle | heq)
    · exact absurd hle (by decide)
    · exact absurd heq (by decide)

end Fork

end Oxen
