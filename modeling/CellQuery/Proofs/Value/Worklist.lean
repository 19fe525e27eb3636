import CellQuery.Proofs.Value.Subtree

/-! # The height of a value by a worklist

    The scan for the height keeps a list of pending nodes, each with its level, and takes one of
    them at a time, until there are none.  It does not matter which: every visit lowers the number
    of nodes that are still to be visited by one, and leaves the depth that the scan will come to
    as it is.

    * `Scan.Visit` is one visit, `Scan.Visits` a number of them in a row.
    * `Scan.Visit.reach_eq` and `Scan.Visit.pendingCount_eq` are the invariant and the measure.
    * `Value.AtLevel` tells at which levels of a value another one stands.
    * `Value.scanHeight_exact` says that every scan ends, with the height of the tree, and how
      heights and levels go together. -/

namespace CellQuery

open Value

/-! ## Scans -/

/-- A moment of a scan: the deepest level so far, and the nodes still to visit with their levels. -/
structure Scan where
  deepest : Nat
  pending : List (Value × Nat)

namespace Scan

/-- Before the first visit only the root is pending. -/
def start (v : Value) : Scan :=
  ⟨0, [(v, 1)]⟩

/-- The children of a node, with their level. -/
def below (v : Value) (level : Nat) : List (Value × Nat) :=
  v.children.map fun child => (child, level + 1)

/-- One of the pending nodes is visited, and its children take its place. -/
inductive Visit : Scan → Scan → Prop where
  | intro (deepest : Nat) (before : List (Value × Nat)) (v : Value) (level : Nat)
      (after : List (Value × Nat)) :
      Visit ⟨deepest, before ++ (v, level) :: after⟩
        ⟨max deepest level, before ++ (below v level ++ after)⟩

/-- The given number of visits, one after another. -/
inductive Visits : Nat → Scan → Scan → Prop where
  | none (s : Scan) : Visits 0 s s
  | more {n : Nat} {s t u : Scan} : Visit s t → Visits n t u → Visits (n + 1) s u

/-- The depth that the scan will come to. -/
def reach (s : Scan) : Nat :=
  max s.deepest (deepestLevel s.pending)

variable {s t : Scan} {n : Nat}

/-! ## One visit -/

/-- There is something to visit as long as a node is pending. -/
theorem exists_visit (h : s.pending ≠ []) : ∃ t, Visit s t := by
  obtain ⟨deepest, pending⟩ := s
  cases pending with
  | nil => exact absurd rfl h
  | cons node rest =>
    obtain ⟨v, level⟩ := node
    exact ⟨_, .intro deepest [] v level rest⟩

theorem Visit.pendingCount_eq (h : Visit s t) :
    pendingCount s.pending = pendingCount t.pending + 1 := by
  cases h with
  | intro deepest before v level after =>
    -- The node goes, and all that is below it stays to be visited.
    simp only [below, pendingCount_append, pendingCount, pendingCount_at_level, count_eq v]
    omega

/-- What a node adds to the depth it adds by its own level and by its children. -/
theorem Visit.reach_eq (h : Visit s t) : t.reach = s.reach := by
  cases h with
  | intro deepest before v level after =>
    have hbelow := deepestLevel_below v.children level
    simp only [reach, below, deepestLevel_append, deepestLevel]
    omega

/-! ## Scans from the first visit to the last -/

theorem Visits.pendingCount_eq (h : Visits n s t) :
    pendingCount s.pending = pendingCount t.pending + n := by
  induction h with
  | none => rfl
  | more visit _ ih => rw [visit.pendingCount_eq, ih, Nat.add_assoc]

theorem Visits.reach_eq (h : Visits n s t) : t.reach = s.reach := by
  induction h with
  | none => rfl
  | more visit _ ih => rw [ih, visit.reach_eq]

/-- The scan that is run, from the first pending node on, visits every node there is. -/
theorem visits_scanFrom (deepest : Nat) (pending : List (Value × Nat)) :
    Visits (pendingCount pending) ⟨deepest, pending⟩ ⟨scanFrom deepest pending, []⟩ := by
  induction deepest, pending using scanFrom.induct with
  | case1 deepest =>
    rw [scanFrom]
    exact .none _
  | case2 deepest v level rest ih =>
    -- The first pending node is one of them: there is nothing before it.
    have hvisit : Visit ⟨deepest, (v, level) :: rest⟩ ⟨max deepest level, below v level ++ rest⟩ :=
      .intro deepest [] v level rest
    have hcount : pendingCount ((v, level) :: rest) = pendingCount (below v level ++ rest) + 1 :=
      hvisit.pendingCount_eq
    rw [hcount, scanFrom]
    exact .more hvisit ih

theorem pendingCount_start (v : Value) : pendingCount (start v).pending = v.count := by
  simp [start, pendingCount]

theorem reach_start (v : Value) : (start v).reach = v.height := by
  simp [start, reach, deepestLevel, height_eq v]

theorem visits_scanHeight (v : Value) : Visits v.count (start v) ⟨v.scanHeight, []⟩ := by
  have hvisits := visits_scanFrom 0 [(v, 1)]
  have hcount : pendingCount [(v, 1)] = v.count := pendingCount_start v
  rwa [hcount] at hvisits

theorem Visits.le_count {v : Value} (h : Visits n (start v) t) : n ≤ v.count := by
  have hcount := h.pendingCount_eq
  rw [pendingCount_start] at hcount
  omega

/-- A scan that has ended has visited every node, and has come to the height. -/
theorem Visits.of_done {v : Value} (h : Visits n (start v) t) (done : t.pending = []) :
    n = v.count ∧ t.deepest = v.height := by
  have hcount := h.pendingCount_eq
  have hreach := h.reach_eq
  rw [pendingCount_start, done, pendingCount, Nat.zero_add] at hcount
  rw [reach_start, reach, done, deepestLevel, Nat.max_zero] at hreach
  exact ⟨hcount.symm, hreach⟩

end Scan

/-! ## Heights and levels -/

namespace Value

/-- The second value stands in the first one with its root at the given level; the root of the
    first one is at level 1. -/
inductive AtLevel : Value → Nat → Value → Prop where
  | root (v : Value) : AtLevel v 1 v
  | child {v c u : Value} {level : Nat} : c ∈ v.children → AtLevel c level u →
      AtLevel v (level + 1) u

variable {u v : Value} {vs : List Value} {level : Nat}

/-- The subtrees of a value are what stands in it at some level. -/
theorem mem_subtrees_iff_atLevel : u ∈ v.subtrees ↔ ∃ level, AtLevel v level u := by
  constructor
  · intro h
    induction v using of_children with
    | step v ih =>
      rcases mem_subtrees.mp h with rfl | ⟨c, hc, hu⟩
      · exact ⟨1, .root u⟩
      · obtain ⟨level, hlevel⟩ := ih c hc hu
        exact ⟨level + 1, .child hc hlevel⟩
  · rintro ⟨level, hlevel⟩
    induction hlevel with
    | root v => exact self_mem_subtrees v
    | child hc _ ih => exact mem_subtrees_of_child hc ih

/-- No subtree reaches further down than the value. -/
theorem AtLevel.height_le (h : AtLevel v level u) : level - 1 + u.height ≤ v.height := by
  induction h with
  | root v => exact Nat.le_of_eq (Nat.zero_add _)
  | child hc _ ih =>
    have := height_child_lt hc
    omega

theorem AtLevel.pos (h : AtLevel v level u) : 0 < level := by
  cases h <;> exact Nat.succ_pos _

/-- The height of the highest value of a list is the maximum of the heights. -/
theorem max?_heights (h : vs ≠ []) : (vs.map height).max? = some (heightAll vs) := by
  induction vs with
  | nil => exact absurd rfl h
  | cons v vs ih =>
    cases vs with
    | nil => simp
    | cons w ws =>
      rw [List.map_cons, List.max?_cons, ih (List.cons_ne_nil w ws), heightAll]
      rfl

/-- The scan for the height of a value ends, in whatever order it takes the nodes: it can go on
    as long as a node is pending, it visits as many as there are, and then it has come to the
    height.  The height is one without children, and one more than the highest child otherwise.
    So a subtree that is not the value itself is lower, and none reaches further down. -/
theorem scanHeight_exact (v : Value) :
    (∀ n t, Scan.Visits n (.start v) t →
      n ≤ v.count ∧ (t.pending ≠ [] → ∃ u, t.Visit u) ∧
        (t.pending = [] → n = v.count ∧ t.deepest = v.scanHeight)) ∧
    Scan.Visits v.count (.start v) ⟨v.scanHeight, []⟩ ∧
    (v.children = [] → v.scanHeight = 1) ∧
    (v.children ≠ [] →
      ∃ highest, (v.children.map scanHeight).max? = some highest ∧ v.scanHeight = 1 + highest) ∧
    (∀ c ∈ v.children, ∀ u ∈ c.subtrees, u.scanHeight < v.scanHeight) ∧
    ∀ level u, AtLevel v level u → level - 1 + u.scanHeight ≤ v.scanHeight := by
  have hheights : v.children.map scanHeight = v.children.map height :=
    List.map_congr_left fun c _ => scanHeight_eq c
  have hvisits := Scan.visits_scanHeight v
  rw [scanHeight_eq] at hvisits
  simp only [scanHeight_eq, hheights]
  refine ⟨fun n t h => ⟨h.le_count, Scan.exists_visit, h.of_done⟩, hvisits, ?_, ?_, ?_, ?_⟩
  · intro hnone
    rw [height_eq, hnone, heightAll]
  · exact fun hsome => ⟨_, max?_heights hsome, height_eq v⟩
  · intro c hc u hu
    obtain ⟨level, hlevel⟩ := mem_subtrees_iff_atLevel.mp hu
    -- It stands below the first level, so something is left above it.
    have := (AtLevel.child hc hlevel).height_le
    have := hlevel.pos
    omega
  · exact fun level u hlevel => hlevel.height_le

/-- The node that was put last is taken first: the deepest node comes in the end. -/
theorem scanHeight_exact_last_first :
    let inner : Value := .node .not [.arg 0]
    let v : Value := .node .and [inner, .nil]
    Scan.Visits 4 (.start v) ⟨3, []⟩ ∧ v.count = 4 ∧ v.scanHeight = 3 ∧
      AtLevel v 2 inner ∧ 2 - 1 + inner.scanHeight ≤ v.scanHeight := by
  intro inner v
  have hvisits : Scan.Visits 4 (.start v) ⟨3, []⟩ :=
    .more (.intro 0 [] v 1 []) <| .more (.intro 1 [(inner, 2)] .nil 2 []) <|
      .more (.intro 2 [] inner 2 []) <| .more (.intro 2 [] (.arg 0) 3 []) <| .none _
  obtain ⟨hends, _, _, _, _, hlevels⟩ := scanHeight_exact v
  obtain ⟨hcount, hheight⟩ := (hends 4 ⟨3, []⟩ hvisits).2.2 rfl
  have hlevel : AtLevel v 2 inner := .child List.mem_cons_self (.root inner)
  exact ⟨hvisits, hcount.symm, hheight.symm, hlevel, hlevels 2 inner hlevel⟩

end Value

end CellQuery
