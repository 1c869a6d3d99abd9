import Mathlib.Algebra.Order.BigOperators.Group.List
import Oxen.Model.DataFrameFilter

/-! What a filter expression is parsed to, and when nothing of it is lost. -/

namespace Oxen

namespace Filters

open Occurrences (First FirstOf Splits join solid find find_lt find_eq_none_iff find_eq_some_iff
  not_prefix_drop)

variable {query text pre post part : Text} {v : DFFilterVal} {op : DFFilterOp}
  {ops : List DFLogicalOp} {vals : List DFFilterVal} {parts : List Text}

/-! ## Operators -/

theorem DFFilterOp.asStr_ne_nil (op : DFFilterOp) : op.asStr ≠ [] := by
  cases op <;> decide

theorem DFLogicalOp.asStr_ne_nil (op : DFLogicalOp) : op.asStr ≠ [] := by
  cases op <;> decide

theorem DFFilterOp.space_notMem (op : DFFilterOp) : ' ' ∉ op.asStr := by
  cases op <;> decide

theorem DFLogicalOp.space_notMem (op : DFLogicalOp) : ' ' ∉ op.asStr := by
  cases op <;> decide

theorem DFLogicalOp.eq_of_prefix (op other : DFLogicalOp) (h : op.asStr <+: other.asStr) :
    op = other := by
  cases op <;> cases other <;> first | rfl | exact absurd h (by decide)

/-! ## Cutting at the logical operators -/

/-- What the search has found is the earliest of the operators seen. -/
structure Earliest (text : Text) (seen : List DFLogicalOp)
    (found : Option (DFLogicalOp × ℕ) × ℕ) : Prop where
  least : ∀ op ∈ seen, ∀ k, find op.asStr text = some k → found.2 ≤ k
  found : found = (none, text.length) ∨
    ∃ op, found.1 = some (op, found.2) ∧ find op.asStr text = some found.2

/-- One more operator is searched for. -/
theorem Earliest.step {seen : List DFLogicalOp} {found : Option (DFLogicalOp × ℕ) × ℕ}
    (h : Earliest text seen found) (op : DFLogicalOp) :
    Earliest text (seen ++ [op]) (match find op.asStr text with
      | none => found
      | some idx => if idx < found.2 then (some (op, idx), idx) else found) := by
  cases hfind : find op.asStr text with
  | none =>
      refine ⟨fun other hother k hk => ?_, h.found⟩
      rcases List.mem_append.mp hother with hother | hother
      · exact h.least other hother k hk
      · rw [List.mem_singleton.mp hother, hfind] at hk
        cases hk
  | some idx =>
      dsimp only
      by_cases hlt : idx < found.2
      · rw [if_pos hlt]
        refine ⟨fun other hother k hk => ?_, .inr ⟨op, rfl, hfind⟩⟩
        rcases List.mem_append.mp hother with hother | hother
        · exact hlt.le.trans (h.least other hother k hk)
        · rw [List.mem_singleton.mp hother, hfind] at hk
          exact (Option.some.inj hk).le
      · rw [if_neg hlt]
        refine ⟨fun other hother k hk => ?_, h.found⟩
        rcases List.mem_append.mp hother with hother | hother
        · exact h.least other hother k hk
        · rw [List.mem_singleton.mp hother, hfind] at hk
          exact Option.some.inj hk ▸ not_lt.mp hlt

theorem mem_candidateOps (op : DFLogicalOp) : op ∈ candidateOps := by
  cases op <;> decide

/-- The first logical operator of a text, if there is one. -/
theorem findNextLogicalOp_spec (text : Text) :
    (findNextLogicalOp text candidateOps = none ∧ ∀ op : DFLogicalOp, ¬ op.asStr <:+: text) ∨
      ∃ op pre post, text = pre ++ DFLogicalOp.asStr op ++ post ∧
        FirstOf DFLogicalOp.asStr op pre post ∧
        findNextLogicalOp text candidateOps = some (op, pre.length) := by
  have hstart : Earliest text [] (none, text.length) :=
    ⟨fun op hop => absurd hop List.not_mem_nil, .inl rfl⟩
  have hend : ∃ found, findNextLogicalOp text candidateOps = found.1 ∧
      Earliest text candidateOps found := ⟨_, rfl, (hstart.step .and).step .or⟩
  rcases hend with ⟨found, hresult, hearliest⟩
  rw [hresult]
  rcases hearliest.found with rfl | ⟨op, hop, hfind⟩
  · refine .inl ⟨rfl, fun op => (find_eq_none_iff op.asStr_ne_nil).mp ?_⟩
    cases hfind : find op.asStr text with
    | none => rfl
    | some k =>
        have hle := hearliest.least op (mem_candidateOps op) k hfind
        exact absurd (find_lt op.asStr_ne_nil hfind) (not_lt.mpr hle)
  · rcases (find_eq_some_iff op.asStr_ne_nil).mp hfind with ⟨pre, post, rfl, hlength, -⟩
    refine .inr ⟨op, pre, post, rfl, ⟨fun other j hj => ?_⟩, by rw [hop, hlength]⟩
    exact not_prefix_drop other.asStr_ne_nil (hearliest.least other (mem_candidateOps other))
      (hlength ▸ hj)

theorem subExprs_spec (rounds : ℕ) (query : Text) (h : query.length ≤ rounds) :
    ∃ parts, Splits DFLogicalOp.asStr query (subExprs rounds query).1 parts ∧
      (subExprs rounds query).2 = parts.map trim := by
  induction rounds generalizing query with
  | zero =>
      cases query with
      | nil => exact ⟨[[]], .last [] fun op hop => op.asStr_ne_nil (List.infix_nil.mp hop), rfl⟩
      | cons c query => cases h
  | succ rounds ih =>
      rw [subExprs]
      rcases findNextLogicalOp_spec query with ⟨hfind, hnone⟩ | ⟨op, pre, post, rfl, hfirst, hfind⟩
      · rw [hfind]
        exact ⟨[query], .last query hnone, rfl⟩
      · rw [hfind]
        have hdrop : (pre ++ op.asStr ++ post).drop (pre.length + op.asStr.length) = post := by
          rw [← List.length_append, List.drop_left]
        have htake : (pre ++ op.asStr ++ post).take pre.length = pre := by
          rw [List.append_assoc, List.take_left]
        have hlength : post.length ≤ rounds := by
          have hpos := List.length_pos_iff.mpr op.asStr_ne_nil
          simp only [List.length_append] at h
          omega
        rcases ih post hlength with ⟨parts, hparts, htrim⟩
        dsimp only
        rw [hdrop, htake, htrim]
        exact ⟨pre :: parts, .cons op pre post _ parts hfirst hparts, rfl⟩

/-! ## Printed expressions -/

namespace DFFilterVal

def print (v : DFFilterVal) : Text :=
  v.field ++ (' ' :: v.op.asStr ++ [' ']) ++ v.value

/-- The field and the value without the space around them. -/
def trimmed (v : DFFilterVal) : DFFilterVal :=
  { v with field := trim v.field, value := trim v.value }

/-- The comparison as it stands in a query. -/
def written (v : DFFilterVal) : Text :=
  v.field ++ v.op.asStr ++ v.value

end DFFilterVal

def DFFilterExp.print (exp : DFFilterExp) : Text :=
  join (fun op => ' ' :: DFLogicalOp.asStr op ++ [' ']) (exp.vals.map DFFilterVal.print)
    exp.logicalOps

/-- A trimmed text that is not empty and has no operator inside. -/
structure Plain (text : Text) : Prop where
  trimmed : trim text = text
  ne_nil : text ≠ []
  comparison : ∀ op : DFFilterOp, ¬ op.asStr <:+: text
  logical : ∀ op : DFLogicalOp, ¬ op.asStr <:+: text

structure PlainVal (v : DFFilterVal) : Prop where
  field : Plain v.field
  value : Plain v.value

/-- Comparisons of plain texts, joined by logical operators. -/
structure Printable (exp : DFFilterExp) : Prop where
  plain : ∀ v ∈ exp.vals, PlainVal v
  length : exp.vals.length = exp.logicalOps.length + 1

theorem infix_print_iff {pat : Text} (h : ' ' ∉ pat) (hpat : pat ≠ []) :
    pat <:+: v.print ↔ pat <:+: v.field ∨ pat <:+: v.op.asStr ∨ pat <:+: v.value := by
  have hprint : v.print = v.field ++ ' ' :: (v.op.asStr ++ ' ' :: v.value) := by
    simp [DFFilterVal.print]
  rw [hprint, Occurrences.infix_append_cons_iff h hpat, Occurrences.infix_append_cons_iff h hpat]

theorem PlainVal.infix_print_iff (h : PlainVal v) (op : DFFilterOp) :
    op.asStr <:+: v.print ↔ op.asStr <:+: v.op.asStr := by
  rw [Filters.infix_print_iff op.space_notMem op.asStr_ne_nil]
  simp [h.field.comparison op, h.value.comparison op]

theorem PlainVal.not_infix_print (h : PlainVal v) (op : DFLogicalOp) :
    ¬ op.asStr <:+: v.print := by
  rw [Filters.infix_print_iff op.space_notMem op.asStr_ne_nil]
  rintro (hfield | hop | hvalue)
  · exact h.field.logical op hfield
  · revert hop
    cases op <;> cases v.op <;> decide
  · exact h.value.logical op hvalue

theorem PlainVal.trim_print (h : PlainVal v) : trim v.print = v.print :=
  Occurrences.trim_of_ends h.field.trimmed h.value.trimmed h.field.ne_nil h.value.ne_nil

/-- The operator of the comparison is the one that is tried first. -/
theorem find_filterOps (op : DFFilterOp) :
    filterOps.find? (fun other => other.asStr <:+: op.asStr) = some op := by
  cases op <;> decide

theorem isWhitespace_space : ∀ c ∈ [' '], Zip.isWhitespace c = true := by
  intro c hc
  rw [List.mem_singleton.mp hc]
  decide

theorem trim_append_space (h : trim text = text) : trim (text ++ [' ']) = text := by
  have htrim := @Occurrences.trim_append_append _ text [] [' '] Zip.isWhitespace
    (fun c hc => absurd hc List.not_mem_nil) isWhitespace_space
  exact htrim.trans h

theorem trim_space_append (h : trim text = text) : trim (' ' :: text) = text := by
  have htrim := @Occurrences.trim_append_append _ text [' '] [] Zip.isWhitespace
    isWhitespace_space (fun c hc => absurd hc List.not_mem_nil)
  rw [List.append_nil] at htrim
  exact htrim.trans h

theorem parseSubExpr_print (h : PlainVal v) : parseSubExpr v.print = some v := by
  have hfind : filterOps.find? (fun op => op.asStr <:+: v.print) = some v.op := by
    simp only [h.infix_print_iff]
    exact find_filterOps v.op
  have hfirst : First v.op.asStr (v.field ++ [' ']) (' ' :: v.value) :=
    First.of_separated v.op.space_notMem (h.field.comparison v.op)
  have hvalue : ¬ v.op.asStr <:+: ' ' :: v.value := by
    have hiff := @Occurrences.infix_append_cons_iff _ v.op.asStr [] v.value ' ' v.op.space_notMem
      v.op.asStr_ne_nil
    rw [List.nil_append] at hiff
    rw [hiff]
    rintro (hnil | hin)
    · exact v.op.asStr_ne_nil (List.infix_nil.mp hnil)
    · exact h.value.comparison v.op hin
  have hprint : v.print = v.field ++ [' '] ++ v.op.asStr ++ ' ' :: v.value := by
    simp [DFFilterVal.print]
  rw [parseSubExpr, hfind, Option.map_some, filterVal, splitAndTrim, hprint,
    Occurrences.split_of_first v.op.asStr_ne_nil hfirst,
    Occurrences.split_of_not_infix v.op.asStr_ne_nil hvalue]
  simp [trim_append_space h.field.trimmed, trim_space_append h.value.trimmed]

theorem PlainVal.not_infix_lead (h : PlainVal v) {lead : Text} (hlead : lead = [] ∨ lead = [' '])
    (op : DFLogicalOp) : ¬ op.asStr <:+: lead ++ v.print := by
  rcases hlead with rfl | rfl
  · exact h.not_infix_print op
  · have hiff := @Occurrences.infix_append_cons_iff _ op.asStr [] v.print ' ' op.space_notMem
      op.asStr_ne_nil
    rintro hin
    rcases hiff.mp hin with hnil | hprint
    · exact op.asStr_ne_nil (List.infix_nil.mp hnil)
    · exact h.not_infix_print op hprint

/-- The printed expression is cut into its comparisons. -/
theorem exists_splits_print (ops : List DFLogicalOp) (vals : List DFFilterVal) (lead : Text)
    (hlead : lead = [] ∨ lead = [' ']) (hlength : vals.length = ops.length + 1)
    (hplain : ∀ v ∈ vals, PlainVal v) :
    ∃ parts, Splits DFLogicalOp.asStr
        (lead ++ join (fun op => ' ' :: DFLogicalOp.asStr op ++ [' '])
          (vals.map DFFilterVal.print) ops) ops parts ∧
      parts.map trim = vals.map DFFilterVal.print := by
  have hspace : ∀ c ∈ lead, Zip.isWhitespace c = true := by
    rcases hlead with rfl | rfl
    · exact fun c hc => absurd hc List.not_mem_nil
    · exact isWhitespace_space
  induction ops generalizing vals lead with
  | nil =>
      rcases List.length_eq_one_iff.mp hlength with ⟨v, rfl⟩
      have hv := hplain v List.mem_cons_self
      refine ⟨[lead ++ v.print], .last _ (hv.not_infix_lead hlead), ?_⟩
      have htrim := @Occurrences.trim_append_append _ v.print lead [] Zip.isWhitespace hspace
        (fun c hc => absurd hc List.not_mem_nil)
      rw [List.append_nil] at htrim
      exact congrArg (fun text => [text]) (htrim.trans hv.trim_print)
  | cons op ops ih =>
      cases vals with
      | nil => cases hlength
      | cons v vals =>
          have hv := hplain v List.mem_cons_self
          have hne : vals.map DFFilterVal.print ≠ [] := by
            rintro hnil
            rw [List.map_eq_nil_iff.mp hnil] at hlength
            cases hlength
          rcases ih vals [' '] (.inr rfl) (Nat.succ.inj hlength)
            (fun w hw => hplain w (List.mem_cons_of_mem v hw)) isWhitespace_space with
            ⟨parts, hparts, htrim⟩
          refine ⟨(lead ++ v.print ++ [' ']) :: parts, ?_, ?_⟩
          · have hfirst : FirstOf DFLogicalOp.asStr op (lead ++ v.print ++ [' '])
                ([' '] ++ join (fun op => ' ' :: DFLogicalOp.asStr op ++ [' '])
                  (vals.map DFFilterVal.print) ops) := by
              refine ⟨fun other j hj => ?_⟩
              rw [List.append_assoc (lead ++ v.print ++ [' '])]
              exact Occurrences.not_prefix_of_separated other.space_notMem
                (hv.not_infix_lead hlead other) hj
            have hcut := Splits.cons op _ _ ops parts hfirst hparts
            rw [List.map_cons, Occurrences.join_cons _ _ _ hne]
            simpa using hcut
          · have htrimmed := @Occurrences.trim_append_append _ v.print lead [' ']
              Zip.isWhitespace hspace isWhitespace_space
            rw [List.map_cons, List.map_cons, htrim]
            exact congrArg (fun text => text :: vals.map DFFilterVal.print)
              (htrimmed.trans hv.trim_print)

theorem parse_of_splits (hne : query ≠ []) (h : Splits DFLogicalOp.asStr query ops parts) :
    parse (some query) = .ok (some
      { logicalOps := ops, vals := (parts.map trim).filterMap parseSubExpr }) := by
  rcases subExprs_spec query.length query le_rfl with ⟨parts', hparts, htrim⟩
  obtain ⟨hops, rfl⟩ := h.unique DFLogicalOp.eq_of_prefix hparts
  rw [parse, if_neg (by simpa using hne)]
  dsimp only
  rw [htrim, ← hops]

/-- A printed expression is parsed to itself. -/
theorem parse_print {exp : DFFilterExp} (h : Printable exp) :
    parse (some exp.print) = .ok (some exp) := by
  rcases exists_splits_print exp.logicalOps exp.vals [] (.inl rfl) h.length h.plain with
    ⟨parts, hparts, htrim⟩
  have hsplits : Splits DFLogicalOp.asStr exp.print exp.logicalOps parts := hparts
  have hne : exp.print ≠ [] := by
    intro hnil
    rw [hnil] at hsplits
    have hlast : Splits DFLogicalOp.asStr [] [] [[]] :=
      .last [] fun op hop => op.asStr_ne_nil (List.infix_nil.mp hop)
    obtain ⟨-, rfl⟩ := hsplits.unique DFLogicalOp.eq_of_prefix hlast
    rcases List.map_eq_singleton_iff.mp htrim.symm with ⟨v, hv, hprint⟩
    have hfield := (h.plain v (by rw [hv]; exact List.mem_cons_self)).field.ne_nil
    exact hfield (List.append_eq_nil_iff.mp (List.append_eq_nil_iff.mp hprint).1).1
  have hvals : (exp.vals.map DFFilterVal.print).filterMap parseSubExpr = exp.vals := by
    rw [List.filterMap_map]
    have hsome : ∀ v ∈ exp.vals, (parseSubExpr ∘ DFFilterVal.print) v = some v :=
      fun v hv => parseSubExpr_print (h.plain v hv)
    exact (List.filterMap_congr hsome).trans List.filterMap_some
  rw [parse_of_splits hne hsplits, htrim, hvals]

/-! ## What a query says -/

def Expr.comparisons : Expr → List DFFilterVal
  | .compare filter => [filter]
  | .and expr chainExpr => expr.comparisons ++ chainExpr.comparisons
  | .or expr chainExpr => expr.comparisons ++ chainExpr.comparisons

/-- The query consists of the comparisons and the logical operators of the expression, with space
around fields and values. -/
def Says (query : Text) (exp : DFFilterExp) : Prop :=
  ∃ raws : List DFFilterVal, exp.vals = raws.map DFFilterVal.trimmed ∧
    raws.length = exp.logicalOps.length + 1 ∧
      query = join DFLogicalOp.asStr (raws.map DFFilterVal.written) exp.logicalOps

/-- The query is rejected, or nothing of it is dropped and the filter has all its comparisons. -/
def Faithful (query : Text) : Prop :=
  ∀ parsed, parse (some query) = .ok parsed → ∃ exp, parsed = some exp ∧
    exp.vals.length = exp.logicalOps.length + 1 ∧ Says query exp ∧
      ∃ expr, filterDf exp = some (some expr) ∧ expr.comparisons = exp.vals

/-- The operator that is tried first of those in the text is there once. -/
def Comparison (subExpr : Text) : Prop :=
  ∃ op pre post, filterOps.find? (fun op => op.asStr <:+: subExpr) = some op ∧
    subExpr = pre ++ op.asStr ++ post ∧ First op.asStr pre post ∧ ¬ op.asStr <:+: post

/-- Between its logical operators the query has comparisons only. -/
def Covered (query : Text) : Prop :=
  query = [] ∨ ∀ ops parts, Splits DFLogicalOp.asStr query ops parts →
    ∀ part ∈ parts, Comparison (trim part)

/-- The length of a comparison without space. -/
def weight (v : DFFilterVal) : ℕ :=
  solid Zip.isWhitespace v.written

theorem weight_eq : weight v = solid Zip.isWhitespace v.field + solid Zip.isWhitespace v.op.asStr +
    solid Zip.isWhitespace v.value := by
  rw [weight, DFFilterVal.written, Occurrences.solid_append, Occurrences.solid_append]

theorem weight_trimmed : weight v.trimmed = weight v := by
  rw [weight_eq, weight_eq]
  simp only [DFFilterVal.trimmed, trim, Occurrences.solid_trim]

theorem solid_asStr_pos (op : DFFilterOp) : 0 < solid Zip.isWhitespace op.asStr := by
  cases op <;> decide

theorem filterVal_of_once (hfirst : First op.asStr pre post) (honce : ¬ op.asStr <:+: post) :
    filterVal (pre ++ op.asStr ++ post) op = { op, field := trim pre, value := trim post } := by
  rw [filterVal, splitAndTrim, Occurrences.split_of_first op.asStr_ne_nil hfirst,
    Occurrences.split_of_not_infix op.asStr_ne_nil honce]
  rfl

/-- A comparison weighs no more than its text, and as much only if the operator is there once. -/
theorem weight_le_of_parseSubExpr (h : parseSubExpr text = some v) :
    weight v ≤ solid Zip.isWhitespace text ∧
      (¬ Comparison text → weight v < solid Zip.isWhitespace text) := by
  rcases Option.map_eq_some_iff.mp h with ⟨op, hop, rfl⟩
  have hin : op.asStr <:+: text := by simpa using List.find?_some hop
  rcases Occurrences.exists_first op.asStr_ne_nil hin with ⟨pre, post, rfl, hfirst⟩
  have hsolid : ∀ xs, solid Zip.isWhitespace (trim xs) = solid Zip.isWhitespace xs :=
    fun xs => Occurrences.solid_trim
  by_cases honce : op.asStr <:+: post
  · have hlt : weight (filterVal (pre ++ op.asStr ++ post) op) <
        solid Zip.isWhitespace (pre ++ op.asStr ++ post) := by
      rcases Occurrences.exists_first op.asStr_ne_nil honce with ⟨mid, rest, rfl, hmid⟩
      have hpos := solid_asStr_pos op
      have hval : filterVal (pre ++ op.asStr ++ (mid ++ op.asStr ++ rest)) op =
          { op, field := trim pre, value := trim mid } := by
        rw [filterVal, splitAndTrim, Occurrences.split_of_first op.asStr_ne_nil hfirst,
          Occurrences.split_of_first op.asStr_ne_nil hmid]
        rfl
      rw [hval, weight_eq]
      simp only [hsolid, Occurrences.solid_append]
      omega
    exact ⟨hlt.le, fun _ => hlt⟩
  · refine ⟨?_, fun hnot => absurd ⟨op, pre, post, hop, rfl, hfirst, honce⟩ hnot⟩
    rw [filterVal_of_once hfirst honce, weight_eq]
    simp only [hsolid, Occurrences.solid_append, le_refl]

/-- A comparison is read as it stands in the query, with space around it. -/
theorem Comparison.exists_raw (h : Comparison (trim part)) : ∃ raw : DFFilterVal,
    parseSubExpr (trim part) = some raw.trimmed ∧ raw.written = part := by
  rcases h with ⟨op, pre, post, hop, htrim, hfirst, honce⟩
  rcases @Occurrences.exists_trim _ Zip.isWhitespace part with ⟨xs, ys, hpart, hxs, hys⟩
  have hpre : trim (xs ++ pre) = trim pre := by
    have htrim := @Occurrences.trim_append_append _ pre xs [] Zip.isWhitespace hxs
      (fun c hc => absurd hc List.not_mem_nil)
    rwa [List.append_nil] at htrim
  have hpost : trim (post ++ ys) = trim post :=
    @Occurrences.trim_append_append _ post [] ys Zip.isWhitespace
      (fun c hc => absurd hc List.not_mem_nil) hys
  refine ⟨{ op, field := xs ++ pre, value := post ++ ys }, ?_, ?_⟩
  · rw [parseSubExpr, hop, Option.map_some, htrim, filterVal_of_once hfirst honce,
      DFFilterVal.trimmed, hpre, hpost]
  · have hmiddle : Occurrences.trim Zip.isWhitespace part = pre ++ op.asStr ++ post := htrim
    rw [hpart, hmiddle]
    simp [DFFilterVal.written]

/-! ## When nothing is lost -/

theorem chain_spec (expr : Expr) (ops : List DFLogicalOp) (vals : List DFFilterVal)
    (h : vals.length = ops.length) :
    ∃ result, chain expr ops vals = some result ∧
      result.comparisons = expr.comparisons ++ vals := by
  induction ops generalizing expr vals with
  | nil =>
      rw [List.length_nil, List.length_eq_zero_iff] at h
      exact ⟨expr, rfl, by rw [h, List.append_nil]⟩
  | cons op ops ih =>
      cases vals with
      | nil => cases h
      | cons val vals =>
          have hlength := Nat.succ.inj h
          cases op with
          | and =>
              rcases ih (.and expr (.compare val)) vals hlength with ⟨result, hresult, hcomparisons⟩
              exact ⟨result, hresult, by simp [hcomparisons, Expr.comparisons]⟩
          | or =>
              rcases ih (.or expr (.compare val)) vals hlength with ⟨result, hresult, hcomparisons⟩
              exact ⟨result, hresult, by simp [hcomparisons, Expr.comparisons]⟩

/-- With one more comparison than logical operators the filter is complete. -/
theorem filterDf_spec {exp : DFFilterExp} (h : exp.vals.length = exp.logicalOps.length + 1) :
    ∃ expr, filterDf exp = some (some expr) ∧ expr.comparisons = exp.vals := by
  rcases exp with ⟨ops, vals⟩
  cases vals with
  | nil => cases h
  | cons val vals =>
      rcases chain_spec (.compare val) ops vals (Nat.succ.inj h) with
        ⟨expr, hexpr, hcomparisons⟩
      refine ⟨expr, ?_, hcomparisons⟩
      rw [filterDf]
      dsimp only
      rw [hexpr, Option.map_some]

theorem exists_raws (h : ∀ part ∈ parts, Comparison (trim part)) :
    ∃ raws : List DFFilterVal, raws.map DFFilterVal.written = parts ∧
      (parts.map trim).filterMap parseSubExpr = raws.map DFFilterVal.trimmed := by
  induction parts with
  | nil => exact ⟨[], rfl, rfl⟩
  | cons part parts ih =>
      rcases (h part List.mem_cons_self).exists_raw with ⟨raw, hparse, hwritten⟩
      rcases ih fun other hother => h other (List.mem_cons_of_mem part hother) with
        ⟨raws, hraws, hparses⟩
      refine ⟨raw :: raws, by rw [List.map_cons, hwritten, hraws], ?_⟩
      rw [List.map_cons, List.filterMap_cons_some hparse, hparses, List.map_cons]

/-- What is dropped of a sub expression is missing in the weight of the comparisons. -/
theorem sum_weight_lt {exprs : List Text} (h : ∀ expr ∈ exprs, (parseSubExpr expr).isSome = true)
    (hnot : ∃ expr ∈ exprs, ¬ Comparison expr) :
    ((exprs.filterMap parseSubExpr).map weight).sum < (exprs.map (solid Zip.isWhitespace)).sum := by
  have hle : ∀ expr ∈ exprs, ((parseSubExpr expr).map weight).getD 0 ≤
      solid Zip.isWhitespace expr := by
    intro expr hexpr
    rcases Option.isSome_iff_exists.mp (h expr hexpr) with ⟨v, hv⟩
    rw [hv]
    exact (weight_le_of_parseSubExpr hv).1
  have hlt : ∃ expr ∈ exprs, ((parseSubExpr expr).map weight).getD 0 <
      solid Zip.isWhitespace expr := by
    rcases hnot with ⟨expr, hexpr, hnot⟩
    rcases Option.isSome_iff_exists.mp (h expr hexpr) with ⟨v, hv⟩
    exact ⟨expr, hexpr, by rw [hv]; exact (weight_le_of_parseSubExpr hv).2 hnot⟩
  have hsum : ((exprs.filterMap parseSubExpr).map weight).sum =
      (exprs.map fun expr => ((parseSubExpr expr).map weight).getD 0).sum := by
    clear hle hlt hnot
    induction exprs with
    | nil => rfl
    | cons expr exprs ih =>
        rcases Option.isSome_iff_exists.mp (h expr List.mem_cons_self) with ⟨v, hv⟩
        rw [List.filterMap_cons_some hv, List.map_cons, List.map_cons, List.sum_cons,
          List.sum_cons, ih fun other hother => h other (List.mem_cons_of_mem expr hother), hv]
        rfl
  rw [hsum]
  exact List.sum_lt_sum _ _ hle hlt

theorem faithful_of_covered (h : Covered query) : Faithful query := by
  intro parsed hparsed
  by_cases hne : query = []
  · subst hne
    cases hparsed
  · rcases subExprs_spec query.length query le_rfl with ⟨parts, hparts, -⟩
    rw [parse_of_splits hne hparts] at hparsed
    obtain rfl := Except.ok.inj hparsed
    rcases exists_raws (h.resolve_left hne _ parts hparts) with ⟨raws, hraws, hvals⟩
    have hlength : raws.length = (subExprs query.length query).1.length + 1 := by
      rw [← hparts.length_parts, ← hraws, List.length_map]
    rw [hvals]
    refine ⟨_, rfl, by rw [List.length_map, hlength], ⟨raws, rfl, hlength, ?_⟩,
      filterDf_spec (by rw [List.length_map, hlength])⟩
    rw [hraws, hparts.join_eq]

theorem covered_of_faithful (h : Faithful query) : Covered query := by
  by_cases hne : query = []
  · exact .inl hne
  · refine .inr fun ops parts hparts part hpart => ?_
    rcases h _ (parse_of_splits hne hparts) with ⟨exp, hexp, hlength, hsays, -⟩
    obtain rfl := Option.some.inj hexp
    rcases hsays with ⟨raws, hvals, hraws, hquery⟩
    by_contra hnot
    have hsome : ∀ expr ∈ parts.map trim, (parseSubExpr expr).isSome = true := by
      apply List.filterMap_length_eq_length.mp
      rw [List.length_map, hparts.length_parts]
      exact hlength
    have hlt := sum_weight_lt hsome ⟨trim part, List.mem_map_of_mem hpart, hnot⟩
    -- Both ways the query has the same length without space.
    have hsolid : ((parts.map trim).map (solid Zip.isWhitespace)).sum =
        (((parts.map trim).filterMap parseSubExpr).map weight).sum := by
      have hcut := congrArg (solid Zip.isWhitespace) (hparts.join_eq.trans hquery)
      rw [Occurrences.solid_join hparts.length_parts,
        Occurrences.solid_join (by rw [List.length_map, hraws]), Nat.add_right_cancel_iff,
        List.map_map] at hcut
      have hparts : (parts.map trim).map (solid Zip.isWhitespace) =
          parts.map (solid Zip.isWhitespace) := by
        rw [List.map_map]
        exact List.map_congr_left fun part _ => Occurrences.solid_trim
      have hweights : (raws.map DFFilterVal.trimmed).map weight =
          raws.map (solid Zip.isWhitespace ∘ DFFilterVal.written) := by
        rw [List.map_map]
        exact List.map_congr_left fun raw _ => weight_trimmed
      have hvals' : (parts.map trim).filterMap parseSubExpr = raws.map DFFilterVal.trimmed := hvals
      rw [hparts, hcut, hvals', hweights]
    exact hlt.ne hsolid.symm

/-- Printed expressions are parsed to themselves. A query is rejected or nothing of it is lost, if
and only if it has comparisons only between its logical operators. -/
theorem parse_faithful_iff (exp : DFFilterExp) (query : Text) :
    (Printable exp → parse (some exp.print) = .ok (some exp)) ∧
      (Faithful query ↔ Covered query) :=
  ⟨parse_print, covered_of_faithful, faithful_of_covered⟩

namespace FilterExample

theorem plain {text : Text} (h : text ∈ [['a'], ['b'], ['c'], ['d']]) : Plain text := by
  simp only [List.mem_cons, List.not_mem_nil, or_false] at h
  rcases h with rfl | rfl | rfl | rfl <;>
    exact ⟨by decide, by decide, fun op => by cases op <;> decide,
      fun op => by cases op <;> decide⟩

def expression : DFFilterExp where
  logicalOps := [.or]
  vals := [{ op := .gte, field := ['a'], value := ['b'] },
    { op := .neq, field := ['c'], value := ['d'] }]

theorem printable : Printable expression where
  plain v hv := by
    have hv : v ∈ [_, _] := hv
    simp only [List.mem_cons, List.not_mem_nil, or_false] at hv
    rcases hv with rfl | rfl
    · exact ⟨plain (by decide), plain (by decide)⟩
    · exact ⟨plain (by decide), plain (by decide)⟩
  length := rfl

end FilterExample

open FilterExample in
theorem parse_faithful_iff_example :
    parse (some "a >= b || c != d".toList) = .ok (some expression) :=
  (parse_faithful_iff expression []).1 printable

/-- The second condition is not a comparison, and there is none for the operator. -/
theorem not_faithful : ¬ ((∀ exp, Printable exp → parse (some exp.print) = .ok (some exp)) ∧
    ∀ query, Faithful query) := by
  rintro ⟨-, h⟩
  rcases h "a == b && c".toList _ rfl with ⟨exp, hexp, hlength, -, -⟩
  obtain rfl := Option.some.inj hexp
  revert hlength
  decide

end Filters

end Oxen
