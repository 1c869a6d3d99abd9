import Oxen.Lib.Occurrences
import Oxen.Model.Resource

/-! Which branch and which file a path of a resource names. -/

namespace Oxen

/-! ## Components and their text -/

/-- A component that names something below a directory. -/
def Component.Below (c : Component) : Prop :=
  c ≠ .rootDir ∧ c ≠ .curDir

/-- A component below a directory, with the text that it is read from. -/
structure Component.Proper (c : Component) : Prop where
  reads : OsPath.component? c.text.toList = some c
  notMem : '/' ∉ c.text.toList

namespace OsPath

theorem text_of_component? {part : List Char} {c : Component} (h : component? part = some c) :
    c.text.toList = part ∧ part ≠ [] ∧ c ≠ .rootDir ∧ c ≠ .curDir := by
  unfold component? at h
  split at h
  · cases h
  · next hpart =>
    rw [not_or] at hpart
    split at h
    · next hdots =>
      cases h
      exact ⟨hdots.symm, hpart.1, Component.noConfusion, Component.noConfusion⟩
    · cases h
      refine ⟨?_, hpart.1, Component.noConfusion, Component.noConfusion⟩
      rw [Component.text, String.toList_ofList]

theorem proper_of_component? {path : List Char} {part : List Char} {c : Component}
    (hpart : part ∈ path.splitOn '/') (h : component? part = some c) : c.Proper where
  reads := by rw [(text_of_component? h).1, h]
  notMem := by
    rw [(text_of_component? h).1]
    exact Occurrences.notMem_of_mem_splitOn hpart

end OsPath

namespace Component

open OsPath

theorem Proper.ne_nil {c : Component} (h : c.Proper) : c.text.toList ≠ [] :=
  (text_of_component? h.reads).2.1

theorem Proper.below {c : Component} (h : c.Proper) : c.Below :=
  (text_of_component? h.reads).2.2

theorem Proper.getLast?_ne {c : Component} (h : c.Proper) (front : List Char) :
    (front ++ c.text.toList).getLast? ≠ some '/' := by
  rw [List.getLast?_append_of_ne_nil _ h.ne_nil]
  exact fun hlast => h.notMem (List.mem_of_getLast? hlast)

end Component

namespace OsPath

/-- The parts of a path that begins below a directory are all of its components. -/
theorem components_eq_of_below {path : String} (h : ∀ c ∈ components path, c.Below) :
    components path = (path.toList.splitOn '/').filterMap component? := by
  have hfront : (if path.toList.head? = some '/' then [Component.rootDir]
      else if (path.toList.splitOn '/').head? = some ['.'] then [Component.curDir] else []) = [] := by
    split
    · next hroot =>
      have hmem : Component.rootDir ∈ components path := by simp [components, hroot]
      exact absurd rfl (h _ hmem).1
    · next hroot =>
      split
      · next hdot =>
        have hmem : Component.curDir ∈ components path := by simp [components, hroot, hdot]
        exact absurd rfl (h _ hmem).2
      · rfl
  rw [components]
  simp only [hfront, List.nil_append]

theorem proper_of_mem_components {path : String} (h : ∀ c ∈ components path, c.Below)
    {c : Component} (hc : c ∈ components path) : c.Proper := by
  rw [components_eq_of_below h, List.mem_filterMap] at hc
  rcases hc with ⟨part, hpart, hread⟩
  exact proper_of_component? hpart hread

/-- A path pushed to another one adds its components. -/
theorem components_append {path other : String} (hne : path.toList ≠ [])
    (hother : ∀ c ∈ components other, c.Below) :
    components (path ++ "/" ++ other) = components path ++ components other := by
  have htext : (path ++ "/" ++ other).toList = path.toList ++ '/' :: other.toList := by
    rw [String.toList_append, String.toList_append, List.append_assoc]
    rfl
  have hparts : (path ++ "/" ++ other).toList.splitOn '/' =
      path.toList.splitOn '/' ++ other.toList.splitOn '/' := by
    rw [htext, List.splitOn_append_cons_self]
  have hhead : (path ++ "/" ++ other).toList.head? = path.toList.head? := by
    rw [htext, List.head?_append_of_ne_nil _ hne]
  have hfirst : (path.toList.splitOn '/' ++ other.toList.splitOn '/').head? =
      (path.toList.splitOn '/').head? :=
    List.head?_append_of_ne_nil _ (List.splitOn_ne_nil _ _)
  rw [components_eq_of_below hother]
  simp only [components, hparts, hhead, hfirst, List.filterMap_append, List.append_assoc]

end OsPath

namespace Resource

open OsPath

/-! ## Joined components -/

theorem foldl_pushText {cs : OsPath} (h : ∀ c ∈ cs, c.Proper) {acc : String}
    (hne : acc.toList ≠ []) (hlast : acc.toList.getLast? ≠ some '/') :
    (cs.foldl pushText acc).toList = acc.toList ++ cs.flatMap fun c => '/' :: c.text.toList := by
  induction cs generalizing acc with
  | nil => simp
  | cons c cs ih =>
      have hc := h c List.mem_cons_self
      have hpush : (pushText acc c).toList = acc.toList ++ '/' :: c.text.toList := by
        rw [pushText, if_neg hc.below.1, if_neg (not_or.mpr ⟨hne, hlast⟩), String.toList_append,
          String.toList_append, List.append_assoc]
        rfl
      rw [List.foldl_cons, ih (fun d hd => h d (List.mem_cons_of_mem _ hd))]
      · rw [hpush, List.flatMap_cons, List.append_assoc]
      · rw [hpush]
        simp
      · rw [hpush, ← List.singleton_append, ← List.append_assoc]
        exact hc.getLast?_ne _

theorem intercalate_texts (c : Component) (cs : OsPath) :
    ['/'].intercalate ((c :: cs).map fun c => c.text.toList) =
      c.text.toList ++ cs.flatMap fun c => '/' :: c.text.toList := by
  induction cs generalizing c with
  | nil => simp
  | cons d cs ih =>
      rw [List.map_cons, List.intercalate_cons_of_ne_nil (by simp), ih, List.flatMap_cons]
      simp

private theorem filterMap_eq_self {α : Type*} {f : α → Option α} {l : List α}
    (h : ∀ a ∈ l, f a = some a) : l.filterMap f = l := by
  induction l with
  | nil => rfl
  | cons a l ih =>
      rw [List.filterMap_cons_some (h a List.mem_cons_self),
        ih fun b hb => h b (List.mem_cons_of_mem _ hb)]

theorem components_joinComponents {cs : OsPath} (h : ∀ c ∈ cs, c.Proper) :
    components (joinComponents cs) = cs := by
  cases cs with
  | nil => rfl
  | cons c cs =>
      have hc := h c List.mem_cons_self
      have hfirst : pushText "" c = c.text := by
        rw [pushText, if_neg hc.below.1, if_pos (.inl rfl), String.empty_append]
      have htext : (joinComponents (c :: cs)).toList =
          ['/'].intercalate ((c :: cs).map fun c => c.text.toList) := by
        rw [intercalate_texts, joinComponents, List.foldl_cons, hfirst,
          foldl_pushText (fun d hd => h d (List.mem_cons_of_mem _ hd)) hc.ne_nil]
        exact hc.getLast?_ne []
      have hparts : (joinComponents (c :: cs)).toList.splitOn '/' =
          (c :: cs).map fun c => c.text.toList := by
        rw [htext, List.splitOn_intercalate]
        · intro part hpart
          rcases List.mem_map.mp hpart with ⟨d, hd, rfl⟩
          exact (h d hd).notMem
        · simp
      have hhead : (joinComponents (c :: cs)).toList.head? ≠ some '/' := by
        rw [htext, intercalate_texts, List.head?_append_of_ne_nil _ hc.ne_nil]
        exact fun hslash => hc.notMem (List.mem_of_mem_head? hslash)
      have hdot : c.text.toList ≠ ['.'] := by
        intro hdot
        have hreads := hc.reads
        rw [hdot] at hreads
        cases hreads
      have hreads : ((c :: cs).map fun c => c.text.toList).filterMap component? = c :: cs := by
        rw [List.filterMap_map]
        exact filterMap_eq_self fun d hd => (h d hd).reads
      rw [components, if_neg hhead, hparts, List.map_cons, List.head?_cons,
        if_neg (fun heq => hdot (Option.some.inj heq)), List.nil_append]
      exact hreads

/-! ## Branches -/

/-- The branch that a prefix of a path names. -/
def branchNamed (refs : Refs) (components : OsPath) : Option Branch :=
  getBranchByName refs (linuxPathStr (joinComponents components))

variable {ω ε : Type}

/-- A file of a branch as the resource that a path names. -/
def inBranch (db : NodeStore) (path : String) (branch : Branch) (file : OsPath) :
    ParsedResource ω where
  commit := Commits.getById db branch.commitId
  branch := some branch
  path := joinComponents file
  version := branch.name
  resource := path

theorem findSome?_reverse_range {β : Type*} {h : ℕ → Option β} {n k : ℕ} {b : β} (hk : k < n)
    (hb : h k = some b) (hlater : ∀ j, k < j → j < n → h j = none) :
    (List.range n).reverse.findSome? h = some b := by
  induction n with
  | zero => exact absurd hk (Nat.not_lt_zero _)
  | succ n ih =>
      rw [List.range_succ, List.reverse_append, List.reverse_singleton, List.singleton_append,
        List.findSome?_cons]
      rcases Nat.lt_succ_iff_lt_or_eq.mp hk with hk | rfl
      · rw [hlater n hk (Nat.lt_succ_self n)]
        exact ih hk fun j hj hjn => hlater j hj (Nat.lt_succ_of_lt hjn)
      · rw [hb]

section Branches

variable {db : NodeStore} {refs : Refs} {path : String} {cs : OsPath} {b : Branch}

theorem tryParseAsBranch_eq (db : NodeStore) (refs : Refs) (path : String) (cs : OsPath) :
    (tryParseAsBranch db refs path cs : Option (ParsedResource ω)) =
      (List.range cs.length).reverse.findSome? fun split =>
        if split = 0 then (branchNamed refs cs).map fun b => inBranch db path b []
        else (branchNamed refs (cs.take split)).map fun b => inBranch db path b (cs.drop split) := by
  rw [tryParseAsBranch, splits, List.findSome?_map]
  congr 1
  funext split
  simp only [Function.comp_apply]
  split <;> rfl

/-- The longest prefix that leaves something for the path of the file. -/
theorem tryParseAsBranch_proper {k : ℕ} (hpos : 0 < k) (hk : k < cs.length)
    (hb : branchNamed refs (cs.take k) = some b)
    (hlonger : ∀ j, k < j → j < cs.length → branchNamed refs (cs.take j) = none) :
    (tryParseAsBranch db refs path cs : Option (ParsedResource ω)) =
      some (inBranch db path b (cs.drop k)) := by
  rw [tryParseAsBranch_eq]
  apply findSome?_reverse_range hk
  · rw [if_neg hpos.ne', hb, Option.map_some]
  · intro j hj hlt
    rw [if_neg (by omega), hlonger j hj hlt, Option.map_none]

theorem tryParseAsBranch_whole (hne : cs ≠ []) (hb : branchNamed refs cs = some b)
    (hproper : ∀ j, 0 < j → j < cs.length → branchNamed refs (cs.take j) = none) :
    (tryParseAsBranch db refs path cs : Option (ParsedResource ω)) =
      some (inBranch db path b []) := by
  rw [tryParseAsBranch_eq]
  apply findSome?_reverse_range (List.length_pos_iff.mpr hne)
  · rw [if_pos rfl, hb, Option.map_some]
  · intro j hj hlt
    rw [if_neg hj.ne', hproper j hj hlt, Option.map_none]

theorem tryParseAsBranch_none
    (hnone : ∀ j, 0 < j → j ≤ cs.length → branchNamed refs (cs.take j) = none) :
    (tryParseAsBranch db refs path cs : Option (ParsedResource ω)) = none := by
  rw [tryParseAsBranch_eq, List.findSome?_eq_none_iff]
  intro j hj
  have hlt := List.mem_range.mp (List.mem_reverse.mp hj)
  split
  · have hwhole := hnone cs.length (by omega) (Nat.le_refl _)
    rw [List.take_length] at hwhole
    rw [hwhole, Option.map_none]
  · rw [hnone j (by omega) hlt.le, Option.map_none]

end Branches

/-- What a path names whose first component is neither a commit nor a workspace. -/
structure ParsesBranches (db : NodeStore) (refs : Refs)
    (parse : String → Except ε (Option (ParsedResource ω))) (path : String) : Prop where
  proper : ∀ k b, 0 < k → k < (components path).length →
    branchNamed refs ((components path).take k) = some b →
    (∀ j, k < j → j < (components path).length →
      branchNamed refs ((components path).take j) = none) →
    parse path = .ok (some (inBranch db path b ((components path).drop k)))
  whole : ∀ b, branchNamed refs (components path) = some b →
    (∀ j, 0 < j → j < (components path).length →
      branchNamed refs ((components path).take j) = none) →
    parse path = .ok (some (inBranch db path b []))
  nothing : (∀ j, 0 < j → j ≤ (components path).length →
      branchNamed refs ((components path).take j) = none) → parse path = .ok none

section Parse

variable {db : NodeStore} {refs : Refs} {workspaces : String → Except ε (Option ω)}
  {workspaceId : ω → String} {path : String} {first : Component}

theorem parseResourceFromPath_eq (hfirst : (components path).head? = some first)
    (hcommit : Commits.getById db first.text = none) (hworkspace : workspaces first.text = .ok none) :
    parseResourceFromPath db refs workspaces workspaceId path =
      .ok (tryParseAsBranch db refs path (components path)) := by
  rcases hcomponents : components path with _ | ⟨c, rest⟩
  · rw [hcomponents] at hfirst
    cases hfirst
  · rw [hcomponents] at hfirst
    cases hfirst
    simp only [parseResourceFromPath, hcomponents, hcommit, hworkspace]
    cases tryParseAsBranch db refs path (first :: rest) <;> rfl

theorem parsesBranches (hfirst : (components path).head? = some first)
    (hcommit : Commits.getById db first.text = none) (hworkspace : workspaces first.text = .ok none) :
    ParsesBranches db refs (parseResourceFromPath db refs workspaces workspaceId) path where
  proper k b hpos hk hb hlonger := by
    rw [parseResourceFromPath_eq hfirst hcommit hworkspace,
      tryParseAsBranch_proper hpos hk hb hlonger]
  whole b hb hproper := by
    have hne : components path ≠ [] := by
      intro hnil
      rw [hnil] at hfirst
      cases hfirst
    rw [parseResourceFromPath_eq hfirst hcommit hworkspace, tryParseAsBranch_whole hne hb hproper]
  nothing hnone := by
    rw [parseResourceFromPath_eq hfirst hcommit hworkspace, tryParseAsBranch_none hnone]

end Parse

theorem linuxPathStr_of_valid {name : String} (h : Branches.isInvalidBranchName name = false) :
    linuxPathStr name = name := by
  have hmem : '\\' ∉ name.toList := by
    intro hmem
    rcases List.append_of_mem hmem with ⟨front, back, hsplit⟩
    have hinfix : "\\".toList <:+: name.toList := ⟨front, back, by rw [hsplit]; simp⟩
    have hany : Branches.invalidSubstrings.any (fun s => s.toList <:+: name.toList) = true :=
      List.any_eq_true.mpr ⟨"\\", by decide, decide_eq_true hinfix⟩
    rw [Branches.isInvalidBranchName, hany] at h
    simp at h
  have hmap : name.toList.map (fun c => if c = '\\' then '/' else c) = name.toList := by
    conv_rhs => rw [← List.map_id name.toList]
    apply List.map_congr_left
    intro c hc
    rw [id, if_neg]
    exact fun heq => hmem (heq ▸ hc)
  rw [linuxPathStr, hmap, String.ofList_toList]

/-- The path of a file in a branch. -/
def resourcePath (name path : String) : String :=
  if path = "" then name else name ++ "/" ++ path

theorem components_resourcePath {name path : String} (hname : name ≠ "")
    (hpath : ∀ c ∈ components path, c.Below) :
    components (resourcePath name path) = components name ++ components path := by
  rw [resourcePath]
  split
  · next hnil =>
    rw [hnil]
    exact (List.append_nil _).symm
  · exact components_append (fun hnil => hname (String.toList_inj.mp hnil)) hpath

/-- Only the empty path has no components. -/
theorem components_ne_nil {path : String} (hne : path ≠ "") : components path ≠ [] := by
  rcases htext : path.toList with _ | ⟨c, text⟩
  · exact absurd (String.toList_inj.mp htext) hne
  · rw [components, htext]
    by_cases hroot : c = '/'
    · simp [hroot]
    · rcases hparts : text.splitOn '/' with _ | ⟨part, parts⟩
      · exact absurd hparts (List.splitOn_ne_nil _ _)
      · have hsplit : (c :: text).splitOn '/' = (c :: part) :: parts := by
          rw [List.splitOn_cons_eq_if_modifyHead, if_neg (by simpa using hroot), hparts,
            List.modifyHead_cons]
        rw [hsplit]
        by_cases hdot : c :: part = ['.']
        · simp [hroot, hdot]
        · by_cases hdots : c :: part = ['.', '.']
          · simp [component?, hdots]
          · simp [component?, hdot, hdots]

/-- A path whose first component names neither a commit nor a workspace is split behind the
longest of its proper prefixes that names a branch. Only if none does, the whole path is
taken for a branch. So a branch and a path in it are found again. -/
theorem parseResourceFromPath_branches (db : NodeStore) (refs : Refs)
    (workspaces : String → Except ε (Option ω)) (workspaceId : ω → String)
    (hvalid : ∀ name ∈ refs.branches, Branches.isInvalidBranchName name = false) :
    (∀ path first, (components path).head? = some first →
      Commits.getById db first.text = none → workspaces first.text = .ok none →
      ParsesBranches db refs (parseResourceFromPath db refs workspaces workspaceId) path) ∧
    ∀ name commitId path first, refs.branches.lookup name = some commitId → name ≠ "" →
      joinComponents (components name) = name → (∀ c ∈ components path, c.Below) →
      (components name).head? = some first → Commits.getById db first.text = none →
      workspaces first.text = .ok none →
      (∀ j, (if path = "" then 0 else (components name).length) < j →
        j < (components (resourcePath name path)).length →
        branchNamed refs ((components (resourcePath name path)).take j) = none) →
      ∃ resource, parseResourceFromPath db refs workspaces workspaceId (resourcePath name path) =
          .ok (some resource) ∧
        resource.branch = some { name, commitId } ∧ components resource.path = components path := by
  refine ⟨fun path first => parsesBranches, ?_⟩
  intro name commitId path first hlookup hname hjoin hpath hfirst hcommit hworkspace hlonger
  have hcomponents := components_resourcePath hname hpath
  have hmem : name ∈ refs.branches := AList.lookup_isSome.mp (by rw [hlookup]; rfl)
  have hnamed : branchNamed refs (components name) = some { name, commitId } := by
    rw [branchNamed, hjoin, linuxPathStr_of_valid (hvalid name hmem), getBranchByName, hlookup,
      Option.map_some]
  have hne : components name ≠ [] := by
    intro hnil
    rw [hnil] at hfirst
    cases hfirst
  have hfirst' : (components (resourcePath name path)).head? = some first := by
    rw [hcomponents, List.head?_append_of_ne_nil _ hne, hfirst]
  have hparses : ParsesBranches db refs
      (parseResourceFromPath db refs workspaces workspaceId) (resourcePath name path) :=
    parsesBranches hfirst' hcommit hworkspace
  by_cases hempty : path = ""
  · rw [if_pos hempty] at hlonger
    have hnil : components path = [] := by
      rw [hempty]
      rfl
    have hwhole : components (resourcePath name path) = components name := by
      rw [hcomponents, hnil, List.append_nil]
    refine ⟨_, hparses.whole _ (by rw [hwhole]; exact hnamed) hlonger, rfl, ?_⟩
    rw [hnil]
    rfl
  · rw [if_neg hempty] at hlonger
    have hlength : (components name).length < (components (resourcePath name path)).length := by
      rw [hcomponents, List.length_append]
      exact Nat.lt_add_of_pos_right (List.length_pos_iff.mpr (components_ne_nil hempty))
    have htake : (components (resourcePath name path)).take (components name).length =
        components name := by
      rw [hcomponents, List.take_left]
    have hdrop : (components (resourcePath name path)).drop (components name).length =
        components path := by
      rw [hcomponents, List.drop_left]
    refine ⟨_, hparses.proper _ _ (List.length_pos_iff.mpr hne) hlength (by rw [htake]; exact hnamed)
      hlonger, rfl, ?_⟩
    rw [hdrop]
    exact components_joinComponents fun c hc => proper_of_mem_components hpath hc

namespace Example

/-- A branch, one whose name goes on from there, and one whose name has an empty part. -/
def refs : Refs where
  branches := (∅ : KeyedMap.Map String String).insert "main" "1" |>.insert "main/v2" "2"
    |>.insert "old//v1" "3"

def parse (path : String) : Except Unit (Option (ParsedResource Unit)) :=
  parseResourceFromPath (fun _ => none) refs (fun _ => .ok none) (fun _ => "") path

end Example

theorem parses_longerBranch :
    Example.parse "main/v2/data.csv" =
      .ok (some (inBranch (fun _ => none) "main/v2/data.csv" ⟨"main/v2", "2"⟩
        [.normal "data.csv"])) := by
  have hbranches := parseResourceFromPath_branches (fun _ => none) Example.refs
    (fun _ => (.ok none : Except Unit (Option Unit))) (fun _ => "") (by decide)
  have hpath := hbranches.1 "main/v2/data.csv" (.normal "main") (by decide)
    (by decide) rfl
  refine hpath.proper 2 _ (by decide) (by decide) (by decide) fun j hj hlt => ?_
  have hlength : (components "main/v2/data.csv").length = 3 := by decide
  omega

/-- The whole path names a branch, which is longer than the one that is found. A name that is
not the text of its components is not found at all. -/
theorem not_longest :
    (∀ name ∈ Example.refs.branches, Branches.isInvalidBranchName name = false) ∧
      branchNamed Example.refs (components "main/v2") = some ⟨"main/v2", "2"⟩ ∧
      (Example.parse "main/v2").map (·.map (·.branch)) = .ok (some (some ⟨"main", "1"⟩)) ∧
      Example.refs.branches.lookup "old//v1" = some "3" ∧
      (Example.parse "old//v1/data.csv").map (·.map (·.branch)) = .ok none := by
  decide

end Resource

end Oxen
