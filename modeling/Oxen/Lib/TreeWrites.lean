import Mathlib.Data.List.Nodup
import Mathlib.Logic.Function.Basic

/-! Writing a tree to a store of records. A record is started empty, which
replaces what was there, and its children are appended one by one; a child that
is written itself is written between two of its siblings. -/

namespace TreeWrites

variable {ι ν : Type*}

/-- A node and its children under the key of the node. -/
abbrev Store (ι ν : Type*) := ι → Option (ν × List ν)

inductive Write (ι ν : Type*) where
  | start (node : ν)
  | append (parent : ι) (child : ν)

variable (key : ν → ι)

def Write.apply [DecidableEq ι] (store : Store ι ν) : Write ι ν → Store ι ν
  | .start node => Function.update store (key node) (some (node, []))
  | .append parent child =>
      Function.update store parent ((store parent).map fun r => (r.1, r.2 ++ [child]))

def run [DecidableEq ι] (store : Store ι ν) (writes : List (Write ι ν)) : Store ι ν :=
  writes.foldl (Write.apply key) store

theorem run_append [DecidableEq ι] (store : Store ι ν) (xs ys : List (Write ι ν)) :
    run key store (xs ++ ys) = run key (run key store xs) ys :=
  List.foldl_append

/-- What becomes of a node: it is only listed by its parent, or it is written
with its children. -/
inductive TreePlan (ν : Type*) where
  | keep (node : ν)
  | write (node : ν) (children : List (TreePlan ν))

namespace TreePlan

/-- Structural induction with the children quantified by membership. -/
@[elab_as_elim, induction_eliminator]
theorem induction {motive : TreePlan ν → Prop} (keep : ∀ node, motive (.keep node))
    (write : ∀ node children, (∀ c ∈ children, motive c) → motive (.write node children))
    (plan : TreePlan ν) : motive plan :=
  @TreePlan.rec ν motive (fun cs => ∀ c ∈ cs, motive c) keep write (by simp)
    (fun _ _ hhead htail => by simpa using ⟨hhead, htail⟩) plan

def node : TreePlan ν → ν
  | keep node => node
  | write node _ => node

mutual

def writes (parent : ι) : TreePlan ν → List (Write ι ν)
  | keep node => [.append parent node]
  | write node children =>
      .append parent node :: .start node :: writesList (key node) children

def writesList (parent : ι) : List (TreePlan ν) → List (Write ι ν)
  | [] => []
  | c :: cs => writes parent c ++ writesList parent cs

end

theorem writesList_eq (parent : ι) (plans : List (TreePlan ν)) :
    writesList key parent plans = plans.flatMap (writes key parent) := by
  induction plans with
  | nil => rfl
  | cons c cs ih => simp only [writesList, ih, List.flatMap_cons]

mutual

/-- The nodes that are written, with their children. -/
def records : TreePlan ν → List (ν × List ν)
  | keep _ => []
  | write n children => (n, children.map node) :: recordsList children

def recordsList : List (TreePlan ν) → List (ν × List ν)
  | [] => []
  | c :: cs => records c ++ recordsList cs

end

theorem recordsList_eq (plans : List (TreePlan ν)) : recordsList plans = plans.flatMap records := by
  induction plans with
  | nil => rfl
  | cons c cs ih => simp only [recordsList, ih, List.flatMap_cons]

theorem records_write (n : ν) (children : List (TreePlan ν)) :
    (write n children).records = (n, children.map node) :: children.flatMap records := by
  rw [records, recordsList_eq]

theorem writes_write (parent : ι) (n : ν) (children : List (TreePlan ν)) :
    (write n children).writes key parent =
      .append parent n :: .start n :: children.flatMap (writes key (key n)) := by
  rw [writes, writesList_eq]

/-- Children are appended to the parent or to a record that is started. -/
theorem mem_starts_of_append {parent id : ι} {child : ν} {plan : TreePlan ν}
    (h : .append id child ∈ plan.writes key parent) :
    id = parent ∨ ∃ n, .start n ∈ plan.writes key parent ∧ key n = id := by
  induction plan generalizing parent with
  | keep n =>
      rw [writes, List.mem_singleton] at h
      exact .inl (Write.append.inj h).1
  | write n children ih =>
      rw [writes_write] at h ⊢
      rcases List.mem_cons.mp h with h | h
      · exact .inl (Write.append.inj h).1
      · rcases List.mem_cons.mp h with h | h
        · cases h
        · rcases List.mem_flatMap.mp h with ⟨c, hc, h⟩
          right
          rcases ih c hc h with rfl | ⟨m, hm, hkey⟩
          · exact ⟨n, List.mem_cons_of_mem _ List.mem_cons_self, rfl⟩
          · refine ⟨m, List.mem_cons_of_mem _ (List.mem_cons_of_mem _ ?_), hkey⟩
            exact List.mem_flatMap.mpr ⟨c, hc, hm⟩

end TreePlan

/-- The records are in the new store, the parent has the nodes as further
children, and nothing else has changed. -/
structure Wrote (store store' : Store ι ν) (parent : ι) (nodes : List ν)
    (records : List (ν × List ν)) : Prop where
  at_parent : store' parent = (store parent).map fun r => (r.1, r.2 ++ nodes)
  written : ∀ r ∈ records, store' (key r.1) = some r
  others : ∀ h, h ≠ parent → h ∉ records.map (fun r => key r.1) → store' h = store h

variable {key} {store store' store'' : Store ι ν} {parent : ι}

theorem Wrote.nil (store : Store ι ν) (parent : ι) : Wrote key store store parent [] [] where
  at_parent := by cases store parent <;> simp
  written r hr := by cases hr
  others h _ _ := rfl

/-- Records under one key are the same record. -/
def Consistent (key : ν → ι) (records : List (ν × List ν)) : Prop :=
  ∀ r ∈ records, ∀ r' ∈ records, key r.1 = key r'.1 → r = r'

theorem Consistent.mono {rs rs' : List (ν × List ν)} (h : Consistent key rs') (hs : rs ⊆ rs') :
    Consistent key rs :=
  fun r hr r' hr' => h r (hs hr) r' (hs hr')

/-- The second writing may repeat records of the first. -/
theorem Wrote.trans {xs ys : List ν} {rs rs' : List (ν × List ν)}
    (h : Wrote key store store' parent xs rs) (h' : Wrote key store' store'' parent ys rs')
    (hp : parent ∉ rs.map fun r => key r.1) (hc : Consistent key (rs ++ rs')) :
    Wrote key store store'' parent (xs ++ ys) (rs ++ rs') where
  at_parent := by
    rw [h'.at_parent, h.at_parent]
    cases store parent <;> simp
  written r hr := by
    rcases List.mem_append.mp hr with hr | hr
    · by_cases hagain : key r.1 ∈ rs'.map fun r => key r.1
      · rcases List.mem_map.mp hagain with ⟨r', hr', hkey⟩
        obtain rfl := hc r' (List.mem_append_right _ hr') r (List.mem_append_left _ hr) hkey
        exact h'.written r' hr'
      · have hmem := List.mem_map_of_mem (f := fun r => key r.1) hr
        rw [h'.others (key r.1) (fun heq => hp (heq ▸ hmem)) hagain]
        exact h.written r hr
    · exact h'.written r hr
  others k hk hno := by
    rw [List.map_append, List.mem_append, not_or] at hno
    rw [h'.others k hk hno.2, h.others k hk hno.1]

namespace TreePlan

variable [DecidableEq ι]

mutual

def isLayered (key : ν → ι) : TreePlan ν → Bool
  | keep _ => true
  | write n children =>
      decide (key n ∉ (recordsList children).map fun r => key r.1) && isLayeredList key children

def isLayeredList (key : ν → ι) : List (TreePlan ν) → Bool
  | [] => true
  | c :: cs => isLayered key c && isLayeredList key cs

end

/-- No node is written below a node of its key. -/
def Layered (key : ν → ι) (plan : TreePlan ν) : Prop :=
  plan.isLayered key = true

instance (key : ν → ι) (plan : TreePlan ν) : Decidable (plan.Layered key) :=
  inferInstanceAs (Decidable (_ = true))

theorem isLayeredList_iff (plans : List (TreePlan ν)) :
    isLayeredList key plans = true ↔ ∀ c ∈ plans, c.Layered key := by
  induction plans with
  | nil => simp [isLayeredList]
  | cons c cs ih => simp [isLayeredList, ih, Layered]

theorem layered_write_iff {n : ν} {children : List (TreePlan ν)} :
    (write n children).Layered key ↔
      key n ∉ (children.flatMap records).map (fun r => key r.1) ∧ ∀ c ∈ children, c.Layered key := by
  rw [Layered, isLayered, Bool.and_eq_true, isLayeredList_iff, decide_eq_true_eq, recordsList_eq]

theorem wrote_list {plans : List (TreePlan ν)}
    (hplan : ∀ p ∈ plans, ∀ store,
      Wrote key store (run key store (p.writes key parent)) parent [p.node] p.records)
    (hp : parent ∉ (plans.flatMap records).map fun r => key r.1)
    (hc : Consistent key (plans.flatMap records)) (store : Store ι ν) :
    Wrote key store (run key store (plans.flatMap (writes key parent))) parent
      (plans.map node) (plans.flatMap records) := by
  induction plans generalizing store with
  | nil => exact .nil store parent
  | cons p plans ih =>
      rw [List.flatMap_cons] at hp hc
      rw [List.map_append, List.mem_append, not_or] at hp
      rw [List.flatMap_cons, List.flatMap_cons, List.map_cons, run_append]
      have hrest := ih (fun q hq => hplan q (List.mem_cons_of_mem p hq)) hp.2
        (hc.mono (List.subset_append_right _ _)) (run key store (p.writes key parent))
      exact (hplan p List.mem_cons_self store).trans hrest hp.1 hc

/-- A started record whose children are written is in the store with what they wrote. -/
theorem written_of_children {n : ν} {children : List (TreePlan ν)}
    (hwrote : Wrote key (Write.apply key store (.start n)) store' (key n) (children.map node)
      (children.flatMap records)) :
    (∀ r ∈ (write n children).records, store' (key r.1) = some r) ∧
      ∀ h, h ∉ (write n children).records.map (fun r => key r.1) → store' h = store h := by
  have hstarted : Write.apply key store (.start n) (key n) = some (n, []) :=
    Function.update_self (key n) _ store
  rw [records_write]
  constructor
  · intro r hr
    rcases List.mem_cons.mp hr with rfl | hr
    · rw [hwrote.at_parent, hstarted]
      rfl
    · exact hwrote.written r hr
  · intro h hno
    rw [List.map_cons, List.mem_cons, not_or] at hno
    rw [hwrote.others h hno.1 hno.2]
    exact Function.update_of_ne hno.1 _ store

/-- The children of a plan are written below its own record. -/
theorem wrote_children {n : ν} {children : List (TreePlan ν)}
    (hwrote : ∀ c ∈ children, ∀ {parent : ι} (store : Store ι ν), Consistent key c.records →
      parent ∉ c.records.map (fun r => key r.1) →
      Wrote key store (run key store (c.writes key parent)) parent [c.node] c.records)
    (hself : key n ∉ (children.flatMap records).map fun r => key r.1)
    (hc : Consistent key (write n children).records) (store : Store ι ν) :
    Wrote key store (run key store (children.flatMap (writes key (key n)))) (key n)
      (children.map node) (children.flatMap records) := by
  rw [records_write] at hc
  have hsub : ∀ c ∈ children, c.records ⊆ children.flatMap records := fun c hmem r hr =>
    List.mem_flatMap.mpr ⟨c, hmem, hr⟩
  have hbelow := hc.mono (List.subset_cons_self _ _)
  refine wrote_list (fun c hmem store => ?_) hself hbelow store
  apply hwrote c hmem store (hbelow.mono (hsub c hmem))
  exact fun hk => hself (List.map_subset _ (hsub c hmem) hk)

/-- Writing a plan writes its records. -/
theorem wrote (plan : TreePlan ν) (hl : plan.Layered key) (hc : Consistent key plan.records)
    (hp : parent ∉ plan.records.map fun r => key r.1) (store : Store ι ν) :
    Wrote key store (run key store (plan.writes key parent)) parent [plan.node] plan.records := by
  induction plan generalizing parent store with
  | keep n =>
      refine ⟨?_, fun r hr => (List.not_mem_nil hr).elim, fun h hne _ => ?_⟩
      · exact Function.update_self parent _ store
      · exact Function.update_of_ne hne _ store
  | write n children ih =>
      rcases layered_write_iff.mp hl with ⟨hself, hlayered⟩
      -- the state after the node was listed
      let listed := Write.apply key store (.append parent n)
      have hchildren := wrote_children (fun c hmem _ store hc hp => ih c hmem (hlayered c hmem) hc hp store)
        hself hc (Write.apply key listed (.start n))
      rcases written_of_children hchildren with ⟨hwritten, hothers⟩
      rw [writes_write]
      refine ⟨?_, hwritten, fun h hh hno => ?_⟩
      · exact (hothers parent hp).trans (Function.update_self parent _ store)
      · exact (hothers h hno).trans (Function.update_of_ne hh _ store)

/-- Writing the children of a started record writes the whole tree. -/
theorem wrote_root {n : ν} {children : List (TreePlan ν)}
    (hl : (write n children).Layered key) (hc : Consistent key (write n children).records)
    (store : Store ι ν) :
    let store' := run key store (.start n :: children.flatMap (writes key (key n)))
    (∀ r ∈ (write n children).records, store' (key r.1) = some r) ∧
      ∀ h, h ∉ (write n children).records.map (fun r => key r.1) → store' h = store h := by
  rcases layered_write_iff.mp hl with ⟨hself, hlayered⟩
  exact written_of_children (wrote_children
    (fun c hmem _ store hc hp => c.wrote (hlayered c hmem) hc hp store) hself hc _)

end TreePlan

end TreeWrites
