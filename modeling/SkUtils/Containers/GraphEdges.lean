import SkUtils.Containers.GraphMatrix

/-!
`addEdge` of `graph.h` for any two `int`s, as a call that changes the graph. `from` is
compared with the unsigned `edges.size()`, so that a negative one is rejected there, while
nothing is said about a `to` below zero.
-/

namespace SkUtils.Containers.GraphEdges

open SkUtils.Library.CheckedLoop
open SkUtils.Containers.GraphMatrix

variable {V : Type}

/-- A call on a graph. When it ends early, the graph stays as it is by then. -/
abbrev Call (V : Type) := ExceptT Fault (StateM (Graph V))

def exec {α : Type} (call : Call V α) (g : Graph V) : Except Fault α × Graph V :=
  call.run.run g

/-- `edges[i][j] = value`. -/
def writeEdge (i j : Nat) (value : Int) : Call V Unit := do
  let g ← get
  match setCell g.edges i j value with
  | .ok edges => set { g with edges }
  | .error fault => throw fault

/-- `addEdge(from, to, value)`. A `to` below zero is an index in front of the row. -/
def addEdge (source target value : Int) : Call V Unit := do
  let g ← get
  if source ≥ g.nodeNum ∨ target ≥ g.nodeNum then
    throw (.outOfRange "node unexist")
  else if source < 0 ∨ source ≥ g.edges.length then
    throw (.outOfRange "edge auto expand false")
  else if target < 0 then
    throw .badIndex
  else do
    writeEdge source.toNat target.toNat value
    if !g.isYouXiang then
      writeEdge target.toNat source.toNat value

section Exec

variable {g : Graph V} {i j : Nat} {value : Int}

theorem exec_writeEdge_ok {edges : List (List Int)} (h : setCell g.edges i j value = .ok edges) :
    exec (writeEdge i j value) g = (.ok (), { g with edges }) := by
  change exec (match setCell g.edges i j value with
    | .ok edges => set { g with edges }
    | .error fault => throw fault) g = _
  rw [h]
  rfl

theorem exec_writeEdge_error {fault : Fault} (h : setCell g.edges i j value = .error fault) :
    exec (writeEdge i j value) g = (.error fault, g) := by
  change exec (match setCell g.edges i j value with
    | .ok edges => set { g with edges }
    | .error fault => throw fault) g = _
  rw [h]
  rfl

theorem exec_bind {α β : Type} (call : Call V α) (next : α → Call V β) (g : Graph V) :
    exec (call >>= next) g =
      match exec call g with
      | (.ok a, g') => exec (next a) g'
      | (.error fault, g') => (.error fault, g') := by
  simp only [exec, bind, ExceptT.run, ExceptT.bind, ExceptT.mk, StateT.run, StateT.bind]
  rcases call g with ⟨_ | _, g'⟩ <;> rfl

/-- The writes behind the checks. -/
def writeEdges (isYouXiang : Bool) (i j : Nat) (value : Int) : Call V Unit := do
  writeEdge i j value
  if !isYouXiang then
    writeEdge j i value

theorem exec_addEdge (source target value : Int) (g : Graph V) :
    exec (addEdge source target value) g =
      if source ≥ g.nodeNum ∨ target ≥ g.nodeNum then
        (.error (.outOfRange "node unexist"), g)
      else if source < 0 ∨ source ≥ g.edges.length then
        (.error (.outOfRange "edge auto expand false"), g)
      else if target < 0 then (.error .badIndex, g)
      else exec (writeEdges g.isYouXiang source.toNat target.toNat value) g := by
  rw [addEdge, exec_bind, show exec get g = (.ok g, g) from rfl]
  dsimp only
  split
  · rfl
  · split
    · rfl
    · split <;> rfl

end Exec

section Cells

variable {g : Graph V} {i j : Nat}

def HasCell (g : Graph V) (i j : Nat) : Prop :=
  cell g.edges i j ≠ none

theorem HasCell.lt (h : HasCell g i j) : i < g.edges.length := by
  by_contra hge
  exact h (by simp [cell, List.getElem?_eq_none (Nat.le_of_not_lt hge)])

theorem setCell_of_hasCell (h : HasCell g i j) (value : Int) :
    ∃ edges, setCell g.edges i j value = .ok edges ∧
      ∀ a b, cell edges a b = if a = i ∧ b = j then some value else cell g.edges a b := by
  obtain ⟨old, hcell⟩ := Option.ne_none_iff_exists'.mp h
  obtain ⟨row, hrow, hold⟩ := Option.bind_eq_some_iff.mp hcell
  have hcolumn : j < row.length := (List.getElem?_eq_some_iff.mp hold).1
  refine ⟨g.edges.set i (row.set j value), ?_, cell_set hrow hcolumn value⟩
  rw [setCell, hrow]
  simp [hcolumn]

theorem setCell_of_not_hasCell (h : ¬ HasCell g i j) (value : Int) :
    setCell g.edges i j value = .error .badIndex := by
  have hnone : cell g.edges i j = none := not_not.mp h
  rw [setCell]
  split
  case h_1 row hrow =>
      rw [cell, hrow, Option.bind_some, List.getElem?_eq_none_iff] at hnone
      rw [if_neg (Nat.not_lt.mpr hnone)]
      rfl
  case h_2 => rfl

/-- The cells that `addEdge` writes for the nodes `i` and `j`. -/
def HasEdge (g : Graph V) (i j : Nat) : Prop :=
  HasCell g i j ∧ (g.isYouXiang = false → HasCell g j i)

theorem writeEdges_ok (h : HasEdge g i j) (value : Int) :
    ∃ g', exec (writeEdges g.isYouXiang i j value) g = (.ok (), g') ∧
      EdgeAdded g i j value g' := by
  obtain ⟨edges, hset, hcells⟩ := setCell_of_hasCell h.1 value
  rw [writeEdges, exec_bind, exec_writeEdge_ok hset]
  dsimp only
  by_cases hdirected : g.isYouXiang = true
  · rw [if_neg (by simp [hdirected])]
    refine ⟨{ g with edges }, rfl, rfl, rfl, rfl, fun a b => ?_⟩
    simp [hcells, hdirected]
  · have hundirected : g.isYouXiang = false := Bool.eq_false_iff.mpr hdirected
    have hmirror : HasCell { g with edges } j i := by
      rw [HasCell, hcells]
      split
      · simp
      · exact h.2 hundirected
    obtain ⟨edges', hset', hcells'⟩ := setCell_of_hasCell hmirror value
    rw [if_pos (by simp [hundirected])]
    refine ⟨{ g with edges := edges' }, exec_writeEdge_ok hset', rfl, rfl, rfl, fun a b => ?_⟩
    simp [hcells', hcells, hundirected]

theorem writeEdges_badIndex (h : ¬ HasEdge g i j) (value : Int) :
    ∃ g', exec (writeEdges g.isYouXiang i j value) g = (.error .badIndex, g') := by
  rw [writeEdges, exec_bind]
  by_cases hcell : HasCell g i j
  · obtain ⟨edges, hset, hcells⟩ := setCell_of_hasCell hcell value
    obtain ⟨hdirected, hmirror⟩ := Classical.not_imp.mp (not_and.mp h hcell)
    have hmissing : ¬ HasCell { g with edges } j i := by
      rw [HasCell, hcells]
      split
      case isTrue heq =>
          exact absurd (heq.1 ▸ heq.2 ▸ hcell) hmirror
      case isFalse => exact hmirror
    rw [exec_writeEdge_ok hset, hdirected]
    exact ⟨_, exec_writeEdge_error (setCell_of_not_hasCell hmissing value)⟩
  · rw [exec_writeEdge_error (setCell_of_not_hasCell hcell value)]
    exact ⟨g, rfl⟩

end Cells

section Safety

variable {g : Graph V} {source target : Int}

def Inside (g : Graph V) (source target : Int) : Prop :=
  (0 ≤ source ∧ source < g.nodeNum) ∧ 0 ≤ target ∧ target < g.nodeNum

def Rejected (g : Graph V) (source target value : Int) : Prop :=
  ∃ what, exec (addEdge source target value) g = (.error (.outOfRange what), g)

def Written (g : Graph V) (source target value : Int) : Prop :=
  ∃ g', exec (addEdge source target value) g = (.ok (), g') ∧
    EdgeAdded g source.toNat target.toNat value g'

/-- A call with a node that does not exist is rejected, and any other writes its edge. -/
structure EdgeSafe (g : Graph V) (source target value : Int) : Prop where
  rejected : Rejected g source target value ↔ ¬ Inside g source target
  written : Inside g source target → Written g source target value

theorem rejected_iff {value : Int} :
    Rejected g source target value ↔
      (source ≥ g.nodeNum ∨ target ≥ g.nodeNum) ∨ source < 0 ∨ source ≥ g.edges.length := by
  rw [Rejected, exec_addEdge]
  constructor
  · rintro ⟨what, hexec⟩
    split at hexec
    case isTrue h => exact .inl h
    case isFalse =>
        split at hexec
        case isTrue h => exact .inr h
        case isFalse =>
            split at hexec
            · cases hexec
            · by_cases hedge : HasEdge g source.toNat target.toNat
              · obtain ⟨g', hwrite, -⟩ := writeEdges_ok hedge value
                rw [hwrite] at hexec
                cases hexec
              · obtain ⟨g', hwrite⟩ := writeEdges_badIndex hedge value
                rw [hwrite] at hexec
                cases hexec
  · intro h
    split
    case isTrue => exact ⟨_, rfl⟩
    case isFalse hnodes => exact ⟨_, by rw [if_pos (h.resolve_left hnodes)]⟩

theorem written_iff (hinside : Inside g source target) {value : Int} :
    Written g source target value ↔ HasEdge g source.toNat target.toNat := by
  obtain ⟨⟨hsource, hsourceNum⟩, htarget, htargetNum⟩ := hinside
  rw [Written, exec_addEdge, if_neg (by omega)]
  constructor
  · rintro ⟨g', hexec, -⟩
    split at hexec
    case isTrue => cases hexec
    case isFalse =>
        rw [if_neg (by omega)] at hexec
        by_contra hedge
        obtain ⟨g'', hwrite⟩ := writeEdges_badIndex hedge value
        rw [hwrite] at hexec
        cases hexec
  · intro hedge
    have hrow := hedge.1.lt
    rw [if_neg (by omega), if_neg (by omega)]
    exact writeEdges_ok hedge value

/-- For any graph, also one made from a matrix of another size. -/
theorem edgeSafe_iff (g : Graph V) (source target value : Int) :
    EdgeSafe g source target value ↔
      (Inside g source target → HasEdge g source.toNat target.toNat) ∧
        ¬ (0 ≤ source ∧ source < g.nodeNum ∧ source < g.edges.length ∧ target < 0) := by
  constructor
  · intro h
    refine ⟨fun hinside => (written_iff hinside).mp (h.written hinside), ?_⟩
    rintro ⟨hsource, hnum, hrow, htarget⟩
    have hrejected := rejected_iff.mp (h.rejected.mpr fun hinside => absurd hinside.2.1 (by omega))
    omega
  · rintro ⟨hedge, hnegative⟩
    refine ⟨?_, fun hinside => (written_iff hinside).mpr (hedge hinside)⟩
    rw [rejected_iff]
    constructor
    · rintro hout ⟨⟨hsource, hsourceNum⟩, htarget, htargetNum⟩
      have hrow := (hedge ⟨⟨hsource, hsourceNum⟩, htarget, htargetNum⟩).1.lt
      omega
    · intro hout
      rw [Inside] at hout
      omega

theorem hasEdge_of_inside (h : WellFormed g) (hinside : Inside g source target) :
    HasEdge g source.toNat target.toNat := by
  obtain ⟨⟨hsource, hsourceNum⟩, htarget, htargetNum⟩ := hinside
  have hcell : ∀ {i j}, i < g.nodeNum → j < g.nodeNum → HasCell g i j := by
    intro i j hi hj hnone
    obtain ⟨value, hvalue⟩ := h.square.exists_cell hi hj
    rw [hnone] at hvalue
    cases hvalue
  exact ⟨hcell (by omega) (by omega), fun _ => hcell (by omega) (by omega)⟩

end Safety

theorem addEdge_safe_iff :
    (∀ (g : Graph V) (source target value : Int), EdgeSafe g source target value ↔
      (Inside g source target → HasEdge g source.toNat target.toNat) ∧
        ¬ (0 ≤ source ∧ source < g.nodeNum ∧ source < g.edges.length ∧ target < 0)) ∧
    ∀ g : Graph V, Built g → ∀ source target value : Int,
      (EdgeSafe g source target value ↔ ¬ (0 ≤ source ∧ source < g.nodeNum ∧ target < 0)) := by
  refine ⟨edgeSafe_iff, fun g built source target value => ?_⟩
  have hwellFormed := wellFormed_of_built built
  rw [edgeSafe_iff, hwellFormed.square.rows]
  constructor
  · rintro ⟨-, hnegative⟩ ⟨hsource, hnum, htarget⟩
    exact hnegative ⟨hsource, hnum, hnum, htarget⟩
  · intro hnegative
    refine ⟨hasEdge_of_inside hwellFormed, ?_⟩
    rintro ⟨hsource, hnum, -, htarget⟩
    exact hnegative ⟨hsource, hnum, htarget⟩

/-- Beyond the nodes a call is rejected. -/
theorem addEdge_safe_threeNodes :
    EdgeSafe (.ofNodes ['a', 'b', 'c'] false) (-1) (-1) 7 ∧
      EdgeSafe (.ofNodes ['a', 'b', 'c'] false) 2 0 7 := by
  constructor
  · exact (addEdge_safe_iff.2 _ (.ofNodes ['a', 'b', 'c'] false) (-1) (-1) 7).mpr (by decide)
  · exact (addEdge_safe_iff.2 _ (.ofNodes ['a', 'b', 'c'] false) 2 0 7).mpr (by decide)

theorem addEdge_unsafe_target :
    ¬ ∀ g : Graph Char, Built g → ∀ source target value : Int,
      EdgeSafe g source target value := by
  intro h
  have hsafe := h (.ofNodes ['a', 'b'] true) (.ofNodes ['a', 'b'] true) 0 (-1) 1
  rw [edgeSafe_iff] at hsafe
  exact hsafe.2 (by decide)

end SkUtils.Containers.GraphEdges
