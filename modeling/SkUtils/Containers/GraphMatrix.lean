import SkUtils.Containers.IntGraph
import SkUtils.Library.CheckedLoop

/-!
`Graph<ValueType>` of `graph.h` with its vectors as lists: its constructors, `addNode` and
`addEdge` keep the number of nodes, the rows and columns of the matrix and its symmetry in
step. An index behind the end of a vector is a fault. `IntGraph`, where the sizes are types,
is this model for `int`.
-/

namespace SkUtils.Containers.GraphMatrix

open SkUtils.Library.CheckedLoop

def dummyValue : Int := 0

/-- What ends a call: an exception, or an index outside of a vector, which is undefined. -/
inductive Fault
  | outOfRange (what : String)
  | badIndex
  deriving DecidableEq

structure Graph (V : Type) where
  nodes : List V
  edges : List (List Int)
  isYouXiang : Bool
  nodeNum : Nat

section Code

variable {V : Type}

/-- `edges[i][j]`, where it exists. -/
def cell (edges : List (List Int)) (i j : Nat) : Option Int :=
  edges[i]?.bind fun row => row[j]?

def getCell (edges : List (List Int)) (i j : Nat) : Except Fault Int :=
  match cell edges i j with
  | some value => return value
  | none => throw .badIndex

/-- `edges[i][j] = value`. -/
def setCell (edges : List (List Int)) (i j : Nat) (value : Int) :
    Except Fault (List (List Int)) :=
  match edges[i]? with
  | some row =>
      if j < row.length then return edges.set i (row.set j value) else throw .badIndex
  | none => throw .badIndex

/-- `edges[i].resize(size, value)`. -/
def resizeRow (edges : List (List Int)) (i size : Nat) (value : Int) :
    Except Fault (List (List Int)) :=
  match edges[i]? with
  | some row => return edges.set i (row.take size ++ List.replicate (size - row.length) value)
  | none => throw .badIndex

/-- The default constructor. -/
def Graph.empty (isYouXiangTu : Bool) : Graph V where
  nodes := []
  edges := []
  isYouXiang := isYouXiangTu
  nodeNum := 0

def Graph.ofNodes (v : List V) (isYouXiangTu : Bool) : Graph V where
  nodes := v
  edges := List.replicate v.length (List.replicate v.length dummyValue)
  isYouXiang := isYouXiangTu
  nodeNum := v.length

/-- The loops of the matrix constructor of an undirected graph. -/
def copyLower (edges : List (List Int)) (nodeNum : Nat) : Except Fault (List (List Int)) :=
  (List.range nodeNum).foldlM (fun edges i =>
    (List.range' (i + 1) (nodeNum - (i + 1))).foldlM (fun edges j => do
      setCell edges i j (← getCell edges j i)) edges) edges

def Graph.ofMatrix (v : List V) (e : List (List Int)) (isYouXiangTu : Bool) :
    Except Fault (Graph V) := do
  let edges ← if !isYouXiangTu then copyLower e v.length else pure e
  return { nodes := v, edges, isYouXiang := isYouXiangTu, nodeNum := v.length }

def Graph.addNode (g : Graph V) (val : V) : Except Fault (Graph V) := do
  let nodes := g.nodes ++ [val]
  let nodeNum := g.nodeNum + 1
  let edges := g.edges ++ [List.replicate nodeNum dummyValue]
  let edges ← (List.range (nodeNum - 1)).foldlM (fun edges i =>
    resizeRow edges i nodeNum dummyValue) edges
  return { g with nodes, edges, nodeNum }

/-- `addEdge(from, to, value)`. A negative `from` is beyond `edges.size()`, which is
unsigned; a negative `to` is an index in front of the row. -/
def Graph.addEdge (g : Graph V) (source target : Int) (value : Int) : Except Fault (Graph V) :=
  if source ≥ g.nodeNum ∨ target ≥ g.nodeNum then throw (.outOfRange "node unexist")
  else if source < 0 ∨ source ≥ g.edges.length then
    throw (.outOfRange "edge auto expand false")
  else if target < 0 then throw .badIndex
  else do
    let edges ← setCell g.edges source.toNat target.toNat value
    if !g.isYouXiang then
      return { g with edges := ← setCell edges target.toNat source.toNat value }
    else
      return { g with edges }

end Code

section Cells

variable {edges : List (List Int)} {n : Nat}

/-- A matrix of `n` rows and columns. -/
structure Square (n : Nat) (edges : List (List Int)) : Prop where
  rows : edges.length = n
  columns : ∀ row ∈ edges, row.length = n

def Symmetric (edges : List (List Int)) : Prop :=
  ∀ i j, cell edges i j = cell edges j i

theorem Square.exists_row (h : Square n edges) {i : Nat} (hi : i < n) :
    ∃ row, edges[i]? = some row ∧ row.length = n := by
  have hlength : i < edges.length := by rw [h.rows]; exact hi
  exact ⟨edges[i], List.getElem?_eq_getElem hlength, h.columns _ (List.getElem_mem hlength)⟩

theorem Square.exists_cell (h : Square n edges) {i j : Nat} (hi : i < n) (hj : j < n) :
    ∃ value, cell edges i j = some value := by
  obtain ⟨row, hrow, hlength⟩ := h.exists_row hi
  exact ⟨row[j], by simp [cell, hrow, hlength, hj]⟩

theorem Square.cell_eq_none (h : Square n edges) {i j : Nat} (hij : ¬(i < n ∧ j < n)) :
    cell edges i j = none := by
  rcases Nat.lt_or_ge i n with hi | hi
  · obtain ⟨row, hrow, hlength⟩ := h.exists_row hi
    simp only [cell, hrow, Option.bind_some, List.getElem?_eq_none_iff]
    omega
  · have hnone : edges[i]? = none := by
      rw [List.getElem?_eq_none_iff, h.rows]
      exact hi
    simp [cell, hnone]

theorem Square.set (h : Square n edges) (i : Nat) {row : List Int} (hrow : row.length = n) :
    Square n (edges.set i row) where
  rows := by rw [List.length_set, h.rows]
  columns := by
    intro other hother
    rcases List.mem_or_eq_of_mem_set hother with hmem | rfl
    · exact h.columns other hmem
    · exact hrow

theorem getCell_eq_ok {i j : Nat} {value : Int} (h : cell edges i j = some value) :
    getCell edges i j = .ok value := by
  rw [getCell, h]
  rfl

theorem cell_set {i j : Nat} {row : List Int} (hrow : edges[i]? = some row)
    (hj : j < row.length) (value : Int) (a b : Nat) :
    cell (edges.set i (row.set j value)) a b =
      if a = i ∧ b = j then some value else cell edges a b := by
  have hi : i < edges.length := (List.getElem?_eq_some_iff.mp hrow).1
  by_cases hai : a = i
  · subst a
    by_cases hbj : b = j
    · subst b
      simp [cell, hi, hj]
    · simp [cell, List.getElem?_set_self hi, hrow, hbj, List.getElem?_set_ne (Ne.symm hbj)]
  · simp [cell, hai, List.getElem?_set_ne (Ne.symm hai)]

theorem setCell_spec (h : Square n edges) {i j : Nat} (hi : i < n) (hj : j < n) (value : Int) :
    ∃ edges', setCell edges i j value = .ok edges' ∧ Square n edges' ∧
      ∀ a b, cell edges' a b = if a = i ∧ b = j then some value else cell edges a b := by
  obtain ⟨row, hrow, hlength⟩ := h.exists_row hi
  have hcolumn : j < row.length := by omega
  refine ⟨edges.set i (row.set j value), ?_, h.set i (by simpa using hlength),
    cell_set hrow hcolumn value⟩
  rw [setCell, hrow]
  simp [hcolumn]

end Cells

section Copies

variable {edges : List (List Int)} {n : Nat}

/-- The cells once the loops have copied the upper cells that satisfy `copied`. -/
structure Copied (n : Nat) (edges : List (List Int)) (copied : Nat → Nat → Prop)
    (edges' : List (List Int)) : Prop where
  square : Square n edges'
  upper : ∀ a b, a < b → copied a b → cell edges' a b = cell edges b a
  others : ∀ a b, ¬(a < b ∧ copied a b) → cell edges' a b = cell edges a b

theorem Copied.copy {copied copied' : Nat → Nat → Prop} {edges' : List (List Int)}
    (h : Copied n edges copied edges') {i j : Nat} (hij : i < j) (hj : j < n)
    (hcopied : ∀ a b, copied' a b ↔ copied a b ∨ a = i ∧ b = j) :
    ∃ edges'', (do setCell edges' i j (← getCell edges' j i)) = Except.ok edges'' ∧
      Copied n edges copied' edges'' := by
  obtain ⟨value, hvalue⟩ := h.square.exists_cell hj (by omega : i < n)
  obtain ⟨edges'', hset, hsquare, hcells⟩ := setCell_spec h.square (by omega : i < n) hj value
  -- the lower cell has kept the value that it had at first
  have hlower : cell edges j i = some value := by
    rw [← hvalue, h.others j i (by omega)]
  refine ⟨edges'', ?_, hsquare, ?_, ?_⟩
  · rw [getCell_eq_ok hvalue, ok_bind, hset]
  · intro a b hab hdone
    rw [hcells]
    split
    · rename_i hcell
      rw [hcell.1, hcell.2, hlower]
    · rename_i hcell
      rcases (hcopied a b).mp hdone with hdone | hnew
      · exact h.upper a b hab hdone
      · exact absurd hnew hcell
  · intro a b hout
    have hcell : ¬(a = i ∧ b = j) := by
      rintro ⟨rfl, rfl⟩
      exact hout ⟨hij, (hcopied a b).mpr (.inr ⟨rfl, rfl⟩)⟩
    rw [hcells, if_neg hcell]
    exact h.others a b fun hdone => hout ⟨hdone.1, (hcopied a b).mpr (.inl hdone.2)⟩

theorem Copied.congr {copied copied' : Nat → Nat → Prop} {edges' : List (List Int)}
    (h : Copied n edges copied edges')
    (hcopied : ∀ a b, a < b → (copied a b ↔ copied' a b)) : Copied n edges copied' edges' where
  square := h.square
  upper := fun a b hab hdone => h.upper a b hab ((hcopied a b hab).mpr hdone)
  others := fun a b hout =>
    h.others a b fun hdone => hout ⟨hdone.1, (hcopied a b hdone.1).mp hdone.2⟩

/-- The loop over the columns of row `i`. -/
theorem Copied.row {edges' : List (List Int)} {i : Nat} (hi : i < n)
    (h : Copied n edges (fun a b => a < i ∧ b < n) edges') :
    ∃ edges'', (List.range' (i + 1) (n - (i + 1))).foldlM (fun edges j => do
        setCell edges i j (← getCell edges j i)) edges' = Except.ok edges'' ∧
      Copied n edges (fun a b => a < i + 1 ∧ b < n) edges'' := by
  have hfirst : Copied n edges (fun a b => b < n ∧ (a < i ∨ a = i ∧ b < i + 1)) edges' :=
    h.congr fun a b hab => by omega
  obtain ⟨edges'', hloop, hrow⟩ := foldlM_range'_ok (m := n - (i + 1))
    (fun j => Copied n edges fun a b => b < n ∧ (a < i ∨ a = i ∧ b < j)) hfirst
    fun j hij hj t ht => ht.copy hij (by omega) fun a b => by omega
  exact ⟨edges'', hloop, hrow.congr fun a b hab => by omega⟩

theorem copyLower_spec (h : Square n edges) :
    ∃ edges', copyLower edges n = .ok edges' ∧ Square n edges' ∧
      ∀ a b, cell edges' a b = if a < b then cell edges b a else cell edges a b := by
  have hstart : Copied n edges (fun a b => a < 0 ∧ b < n) edges :=
    ⟨h, fun a b _ hdone => absurd hdone.1 (Nat.not_lt_zero a), fun a b _ => rfl⟩
  obtain ⟨edges', hloop, hcopied⟩ := foldlM_range_ok
    (fun i => Copied n edges fun a b => a < i ∧ b < n) hstart fun i hi t ht => ht.row hi
  refine ⟨edges', hloop, hcopied.square, ?_⟩
  intro a b
  by_cases hab : a < b
  · rw [if_pos hab]
    by_cases hb : b < n
    · exact hcopied.upper a b hab ⟨by omega, hb⟩
    · rw [hcopied.square.cell_eq_none (by omega), h.cell_eq_none (by omega)]
  · rw [if_neg hab]
    exact hcopied.others a b fun hdone => hab hdone.1

end Copies

section Growth

variable {edges : List (List Int)} {n : Nat}

/-- The matrix once the rows in front of `i` have got the new column. -/
structure Widened (n : Nat) (edges : List (List Int)) (i : Nat) (edges' : List (List Int)) :
    Prop where
  rows : edges'.length = n + 1
  wide : ∀ k row, k < i → edges[k]? = some row → edges'[k]? = some (row ++ [dummyValue])
  narrow : ∀ k row, i ≤ k → edges[k]? = some row → edges'[k]? = some row
  last : edges'[n]? = some (List.replicate (n + 1) dummyValue)

theorem Widened.resize (h : Square n edges) {i : Nat} (hi : i < n) {edges' : List (List Int)}
    (hwidened : Widened n edges i edges') :
    ∃ edges'', resizeRow edges' i (n + 1) dummyValue = .ok edges'' ∧
      Widened n edges (i + 1) edges'' := by
  obtain ⟨row, hrow, hlength⟩ := h.exists_row hi
  have hrow' := hwidened.narrow i row (Nat.le_refl i) hrow
  have hi' : i < edges'.length := by
    rw [hwidened.rows]
    omega
  have hwide : row.take (n + 1) ++ List.replicate (n + 1 - row.length) dummyValue =
      row ++ [dummyValue] := by
    rw [List.take_of_length_le (by omega), hlength, Nat.add_sub_cancel_left]
    rfl
  refine ⟨edges'.set i (row ++ [dummyValue]), ?_, ?_, ?_, ?_, ?_⟩
  · rw [resizeRow, hrow', ← hwide]
    rfl
  · rw [List.length_set, hwidened.rows]
  · intro k other hk hother
    by_cases hki : k = i
    · subst k
      obtain rfl := Option.some.inj (hrow.symm.trans hother)
      exact List.getElem?_set_self hi'
    · rw [List.getElem?_set_ne (Ne.symm hki)]
      exact hwidened.wide k other (by omega) hother
  · intro k other hk hother
    rw [List.getElem?_set_ne (by omega)]
    exact hwidened.narrow k other (by omega) hother
  · rw [List.getElem?_set_ne (by omega)]
    exact hwidened.last

theorem Widened.square (h : Square n edges) {edges' : List (List Int)}
    (hwidened : Widened n edges n edges') : Square (n + 1) edges' where
  rows := hwidened.rows
  columns := by
    intro row hrow
    obtain ⟨k, hk, hget⟩ := List.mem_iff_getElem.mp hrow
    have hrow' : edges'[k]? = some row := by rw [List.getElem?_eq_getElem hk, hget]
    rw [hwidened.rows] at hk
    rcases Nat.lt_succ_iff_lt_or_eq.mp hk with hlt | rfl
    · obtain ⟨row₀, hrow₀, hlength⟩ := h.exists_row hlt
      have hwide := hwidened.wide k row₀ hlt hrow₀
      obtain rfl := Option.some.inj (hwide.symm.trans hrow')
      rw [List.length_append, hlength, List.length_singleton]
    · obtain rfl := Option.some.inj (hwidened.last.symm.trans hrow')
      exact List.length_replicate

theorem Widened.cell_old (h : Square n edges) {edges' : List (List Int)}
    (hwidened : Widened n edges n edges') {i j : Nat} (hi : i < n) (hj : j < n) :
    cell edges' i j = cell edges i j := by
  obtain ⟨row, hrow, hlength⟩ := h.exists_row hi
  rw [cell, cell, hwidened.wide i row hi hrow, hrow]
  exact List.getElem?_append_left (by omega)

theorem Widened.cell_new (h : Square n edges) {edges' : List (List Int)}
    (hwidened : Widened n edges n edges') {k : Nat} (hk : k ≤ n) :
    cell edges' k n = some dummyValue ∧ cell edges' n k = some dummyValue := by
  have hlast : ∀ j, j ≤ n → cell edges' n j = some dummyValue := by
    intro j hj
    rw [cell, hwidened.last, Option.bind_some, List.getElem?_replicate, if_pos (by omega)]
  refine ⟨?_, hlast k hk⟩
  rcases Nat.lt_or_eq_of_le hk with hlt | rfl
  · obtain ⟨row, hrow, hlength⟩ := h.exists_row hlt
    rw [cell, hwidened.wide k row hlt hrow, Option.bind_some, ← hlength]
    exact List.getElem?_concat_length
  · exact hlast k hk

end Growth

section Invariant

variable {V : Type} {g : Graph V}

/-- The representation invariant. -/
structure WellFormed (g : Graph V) : Prop where
  nodes_length : g.nodes.length = g.nodeNum
  square : Square g.nodeNum g.edges
  symmetric : g.isYouXiang = false → Symmetric g.edges

/-- `addNode` has appended a node, and a row and a column of `dummyValue`. -/
structure NodeAdded (g : Graph V) (val : V) (g' : Graph V) : Prop where
  nodes : g'.nodes = g.nodes ++ [val]
  nodeNum : g'.nodeNum = g.nodeNum + 1
  isYouXiang : g'.isYouXiang = g.isYouXiang
  unchanged : ∀ i j, i < g.nodeNum → j < g.nodeNum → cell g'.edges i j = cell g.edges i j
  added : ∀ k, k ≤ g.nodeNum → cell g'.edges k g.nodeNum = some dummyValue ∧
    cell g'.edges g.nodeNum k = some dummyValue

theorem wellFormed_empty (isYouXiangTu : Bool) :
    WellFormed (Graph.empty isYouXiangTu : Graph V) where
  nodes_length := rfl
  square := ⟨rfl, nofun⟩
  symmetric := fun _ _ _ => rfl

theorem wellFormed_ofNodes (v : List V) (isYouXiangTu : Bool) :
    WellFormed (Graph.ofNodes v isYouXiangTu) where
  nodes_length := rfl
  square := by
    refine ⟨List.length_replicate, fun row hrow => ?_⟩
    rw [List.eq_of_mem_replicate hrow]
    exact List.length_replicate
  symmetric := by
    intro _ i j
    simp only [Graph.ofNodes, cell, List.getElem?_replicate]
    by_cases hi : i < v.length <;> by_cases hj : j < v.length <;> simp [hi, hj]

/-- The graph has the nodes and the matrix it was given; of an undirected one it has taken
the lower triangle. -/
structure MatrixTaken (v : List V) (e : List (List Int)) (isYouXiangTu : Bool) (g : Graph V) :
    Prop where
  nodes : g.nodes = v
  nodeNum : g.nodeNum = v.length
  isYouXiang : g.isYouXiang = isYouXiangTu
  cells : ∀ i j, cell g.edges i j =
    if isYouXiangTu = false ∧ i < j then cell e j i else cell e i j

theorem MatrixTaken.symmetric {v : List V} {e : List (List Int)} (h : MatrixTaken v e false g) :
    Symmetric g.edges := by
  intro i j
  rw [h.cells, h.cells]
  rcases Nat.lt_trichotomy i j with hij | rfl | hij
  · rw [if_pos ⟨rfl, hij⟩, if_neg (by omega)]
  · rfl
  · rw [if_neg (by omega), if_pos ⟨rfl, hij⟩]

theorem ofMatrix_spec (v : List V) {e : List (List Int)} (h : Square v.length e)
    (isYouXiangTu : Bool) :
    ∃ g, Graph.ofMatrix v e isYouXiangTu = .ok g ∧ MatrixTaken v e isYouXiangTu g ∧
      WellFormed g := by
  cases isYouXiangTu with
  | true => exact ⟨_, rfl, ⟨rfl, rfl, rfl, by simp⟩, rfl, h, nofun⟩
  | false =>
      obtain ⟨edges, hcopy, hsquare, hcells⟩ := copyLower_spec h
      have htaken : MatrixTaken v e false
          { nodes := v, edges, isYouXiang := false, nodeNum := v.length } :=
        ⟨rfl, rfl, rfl, fun i j => by simp [hcells]⟩
      exact ⟨_, by simp [Graph.ofMatrix, hcopy], htaken, rfl, hsquare,
        fun _ => htaken.symmetric⟩

theorem NodeAdded.symmetric {val : V} {g' : Graph V} (h : NodeAdded g val g')
    (hsquare : Square (g.nodeNum + 1) g'.edges) (hsymmetric : Symmetric g.edges) :
    Symmetric g'.edges := by
  intro i j
  by_cases hin : i < g.nodeNum + 1 ∧ j < g.nodeNum + 1
  · by_cases hold : i < g.nodeNum ∧ j < g.nodeNum
    · rw [h.unchanged i j hold.1 hold.2, h.unchanged j i hold.2 hold.1, hsymmetric i j]
    · obtain rfl | rfl : i = g.nodeNum ∨ j = g.nodeNum := by omega
      · rw [(h.added j (by omega)).1, (h.added j (by omega)).2]
      · rw [(h.added i (by omega)).1, (h.added i (by omega)).2]
  · rw [hsquare.cell_eq_none hin, hsquare.cell_eq_none fun hji => hin hji.symm]

theorem WellFormed.addNode (h : WellFormed g) (val : V) :
    ∃ g', g.addNode val = .ok g' ∧ NodeAdded g val g' ∧ WellFormed g' := by
  have hstart : Widened g.nodeNum g.edges 0
      (g.edges ++ [List.replicate (g.nodeNum + 1) dummyValue]) := by
    refine ⟨by simp [h.square.rows], nofun, ?_, ?_⟩
    · intro k row _ hrow
      rw [List.getElem?_append_left (List.getElem?_eq_some_iff.mp hrow).1, hrow]
    · rw [← h.square.rows]
      exact List.getElem?_concat_length
  obtain ⟨edges, hloop, hwidened⟩ := foldlM_range_ok
    (fun i => Widened g.nodeNum g.edges i) hstart
    fun i hi t ht => ht.resize h.square hi
  let g' : Graph V := { g with nodes := g.nodes ++ [val], edges, nodeNum := g.nodeNum + 1 }
  have hadded : NodeAdded g val g' :=
    ⟨rfl, rfl, rfl, fun i j hi hj => hwidened.cell_old h.square hi hj,
      fun k hk => hwidened.cell_new h.square hk⟩
  have hsquare : Square (g.nodeNum + 1) edges := hwidened.square h.square
  refine ⟨g', ?_, hadded, ?_, hsquare, ?_⟩
  · simp only [Graph.addNode, Nat.add_sub_cancel, hloop]
    rfl
  · simp [g', h.nodes_length]
  · exact fun hundirected => hadded.symmetric hsquare (h.symmetric hundirected)

/-- `addEdge` has written an edge, in both directions where the graph is undirected. -/
structure EdgeAdded (g : Graph V) (i j : Nat) (value : Int) (g' : Graph V) : Prop where
  nodes : g'.nodes = g.nodes
  nodeNum : g'.nodeNum = g.nodeNum
  isYouXiang : g'.isYouXiang = g.isYouXiang
  cells : ∀ a b, cell g'.edges a b =
    if g.isYouXiang = false ∧ a = j ∧ b = i then some value
    else if a = i ∧ b = j then some value
    else cell g.edges a b

theorem EdgeAdded.symmetric {i j : Nat} {value : Int} {g' : Graph V}
    (h : EdgeAdded g i j value g') (hundirected : g.isYouXiang = false)
    (hsymmetric : Symmetric g.edges) : Symmetric g'.edges := by
  intro a b
  simp only [h.cells, hundirected, true_and, and_comm (a := b = _), hsymmetric a b]
  split
  · split <;> rfl
  · rfl

theorem WellFormed.addEdge (h : WellFormed g) {source target : Int} (hsource : 0 ≤ source)
    (hsourceNum : source < g.nodeNum) (htarget : 0 ≤ target) (htargetNum : target < g.nodeNum)
    (value : Int) :
    ∃ g', g.addEdge source target value = .ok g' ∧
      EdgeAdded g source.toNat target.toNat value g' ∧ WellFormed g' := by
  have hi : source.toNat < g.nodeNum := by omega
  have hj : target.toNat < g.nodeNum := by omega
  obtain ⟨edges, hset, hsquare, hcells⟩ := setCell_spec h.square hi hj value
  obtain ⟨edges', hset', hsquare', hcells'⟩ := setCell_spec hsquare hj hi value
  have hrows : ¬(source < 0 ∨ source ≥ g.edges.length) := by
    rw [h.square.rows]
    omega
  rw [Graph.addEdge, if_neg (by omega), if_neg hrows, if_neg (by omega), hset]
  cases hdirected : g.isYouXiang with
  | true =>
      refine ⟨{ g with edges }, by simp [hdirected], ⟨rfl, rfl, rfl, ?_⟩, h.nodes_length,
        hsquare, by simp [hdirected]⟩
      intro a b
      simp [hcells, hdirected]
  | false =>
      have hadded : EdgeAdded g source.toNat target.toNat value { g with edges := edges' } :=
        ⟨rfl, rfl, rfl, fun a b => by simp [hcells', hcells, hdirected]⟩
      exact ⟨{ g with edges := edges' }, by simp [hset', hdirected], hadded, h.nodes_length,
        hsquare', fun _ => hadded.symmetric hdirected (h.symmetric hdirected)⟩

end Invariant

section Runs

variable {V : Type}

/-- The graphs that the constructors make, given a node for each row and column, and then
`addNode` and `addEdge` between existing nodes. -/
inductive Built : Graph V → Prop
  | empty (isYouXiangTu : Bool) : Built (.empty isYouXiangTu)
  | ofNodes (v : List V) (isYouXiangTu : Bool) : Built (.ofNodes v isYouXiangTu)
  | ofMatrix {v : List V} {e : List (List Int)} {isYouXiangTu : Bool} {g : Graph V}
      (square : Square v.length e) (made : Graph.ofMatrix v e isYouXiangTu = .ok g) : Built g
  | addNode {g g' : Graph V} {val : V} (built : Built g) (added : g.addNode val = .ok g') :
      Built g'
  | addEdge {g g' : Graph V} {source target value : Int} (built : Built g)
      (hsource : 0 ≤ source ∧ source < g.nodeNum) (htarget : 0 ≤ target ∧ target < g.nodeNum)
      (added : g.addEdge source target value = .ok g') : Built g'

theorem wellFormed_of_built {g : Graph V} (h : Built g) : WellFormed g := by
  induction h with
  | empty isYouXiangTu => exact wellFormed_empty isYouXiangTu
  | ofNodes v isYouXiangTu => exact wellFormed_ofNodes v isYouXiangTu
  | @ofMatrix v e isYouXiangTu g square made =>
      obtain ⟨g', hmade, _, hwellFormed⟩ := ofMatrix_spec v square isYouXiangTu
      obtain rfl := Except.ok.inj (hmade.symm.trans made)
      exact hwellFormed
  | @addNode g g' val _ added ih =>
      obtain ⟨g'', hadded, _, hwellFormed⟩ := ih.addNode val
      obtain rfl := Except.ok.inj (hadded.symm.trans added)
      exact hwellFormed
  | @addEdge g g' source target value _ hsource htarget added ih =>
      obtain ⟨g'', hadded, _, hwellFormed⟩ :=
        ih.addEdge hsource.1 hsource.2 htarget.1 htarget.2 value
      obtain rfl := Except.ok.inj (hadded.symm.trans added)
      exact hwellFormed

/-- Every graph that can be built is well formed, and no call on the way faults; `addNode`
changes no entry. -/
theorem built_wellFormed :
    (∀ (v : List V) (e : List (List Int)) (isYouXiangTu : Bool), Square v.length e →
      ∃ g, Graph.ofMatrix v e isYouXiangTu = .ok g) ∧
    ∀ g : Graph V, Built g → WellFormed g ∧
      (∀ val, ∃ g', g.addNode val = .ok g' ∧ NodeAdded g val g') ∧
      ∀ source target value : Int, 0 ≤ source → source < g.nodeNum → 0 ≤ target →
        target < g.nodeNum → ∃ g', g.addEdge source target value = .ok g' := by
  constructor
  · intro v e isYouXiangTu square
    obtain ⟨g, hmade, _⟩ := ofMatrix_spec v square isYouXiangTu
    exact ⟨g, hmade⟩
  · intro g built
    have hwellFormed := wellFormed_of_built built
    refine ⟨hwellFormed, ?_, ?_⟩
    · intro val
      obtain ⟨g', hadded, hnode, _⟩ := hwellFormed.addNode val
      exact ⟨g', hadded, hnode⟩
    · intro source target value hsource hsourceNum htarget htargetNum
      obtain ⟨g', hadded, _⟩ :=
        hwellFormed.addEdge hsource hsourceNum htarget htargetNum value
      exact ⟨g', hadded⟩

def threeNodes : Graph Char where
  nodes := ['a', 'b', 'c']
  edges := [[0, 5, 0], [5, 0, 0], [0, 0, 0]]
  isYouXiang := false
  nodeNum := 3

/-- Two nodes, with a matrix that is not symmetric, and then a third one. -/
theorem built_wellFormed_threeNodes :
    (∃ g, Graph.ofMatrix ['a', 'b'] [[0, 7], [5, 0]] false = .ok g ∧
      g.addNode 'c' = .ok threeNodes) ∧
    WellFormed threeNodes ∧
    (∃ g', threeNodes.addNode 'd' = .ok g' ∧ NodeAdded threeNodes 'd' g') ∧
    ∃ g', threeNodes.addEdge 2 0 4 = .ok g' := by
  have hsquare : Square ['a', 'b'].length [[0, 7], [5, 0]] := ⟨rfl, by decide⟩
  obtain ⟨g, hmade⟩ := built_wellFormed.1 ['a', 'b'] [[0, 7], [5, 0]] false hsquare
  have hadded : g.addNode 'c' = .ok threeNodes := by
    obtain rfl := Except.ok.inj hmade
    rfl
  obtain ⟨hwellFormed, hnode, hedge⟩ :=
    built_wellFormed.2 threeNodes (.addNode (.ofMatrix hsquare hmade) hadded)
  exact ⟨⟨g, hmade, hadded⟩, hwellFormed, hnode 'd',
    hedge 2 0 4 (by decide) (by decide) (by decide) (by decide)⟩

end Runs

section Refinement

variable {n : Nat}

/-- The rows of a matrix whose size is its type. -/
def ofVectors (edges : Vector (Vector Int n) n) : List (List Int) :=
  (edges.map Vector.toList).toList

/-- The vectors of an `IntGraph`. -/
def ofIntGraph (g : IntGraph.Graph) : Graph Int where
  nodes := g.nodes.toList
  edges := ofVectors g.edges
  isYouXiang := g.isYouXiang
  nodeNum := g.nodeNum

@[simp]
theorem cell_ofVectors (edges : Vector (Vector Int n) n) (i j : Fin n) :
    cell (ofVectors edges) i j = some (IntGraph.edge edges i j) := by
  simp [cell, ofVectors, IntGraph.edge]

theorem square_ofVectors (edges : Vector (Vector Int n) n) : Square n (ofVectors edges) where
  rows := by simp [ofVectors]
  columns := by simp [ofVectors]

theorem Square.eq_ofVectors {edges : List (List Int)} (h : Square n edges)
    {edges' : Vector (Vector Int n) n}
    (hcells : ∀ i j : Fin n, cell edges i j = some (IntGraph.edge edges' i j)) :
    edges = ofVectors edges' := by
  have h' := square_ofVectors edges'
  apply List.ext_getElem?
  intro i
  rcases Nat.lt_or_ge i n with hi | hi
  · obtain ⟨row, hrow, hlength⟩ := h.exists_row hi
    obtain ⟨row', hrow', hlength'⟩ := h'.exists_row hi
    have hsame : row = row' := by
      apply List.ext_getElem?
      intro j
      rcases Nat.lt_or_ge j n with hj | hj
      · have hcell := (hcells ⟨i, hi⟩ ⟨j, hj⟩).trans (cell_ofVectors edges' ⟨i, hi⟩ ⟨j, hj⟩).symm
        simpa [cell, hrow, hrow'] using hcell
      · rw [List.getElem?_eq_none_iff.mpr (by omega), List.getElem?_eq_none_iff.mpr (by omega)]
    rw [hrow, hrow', hsame]
  · rw [List.getElem?_eq_none_iff.mpr (by rw [h.rows]; exact hi),
      List.getElem?_eq_none_iff.mpr (by rw [h'.rows]; exact hi)]

/-- A well-formed graph with the fields and the cells of an `IntGraph` is that graph. -/
theorem eq_ofIntGraph {g' : Graph Int} {g : IntGraph.Graph} (h : WellFormed g')
    (hnodes : g'.nodes = g.nodes.toList) (hnum : g'.nodeNum = g.nodeNum)
    (hdirected : g'.isYouXiang = g.isYouXiang)
    (hcells : ∀ i j : Fin g.nodeNum, cell g'.edges i j = some (IntGraph.edge g.edges i j)) :
    g' = ofIntGraph g := by
  have hedges : g'.edges = ofVectors g.edges := (hnum ▸ h.square).eq_ofVectors hcells
  cases g'
  simp_all [ofIntGraph]

theorem ofMatrix_ofIntGraph (v : Vector Int n) (e : Vector (Vector Int n) n)
    (isYouXiangTu : Bool) :
    Graph.ofMatrix v.toList (ofVectors e) isYouXiangTu =
      .ok (ofIntGraph (.ofMatrix v e isYouXiangTu)) := by
  have hsquare : Square v.toList.length (ofVectors e) := by
    rw [Vector.length_toList]
    exact square_ofVectors e
  obtain ⟨g, hmade, htaken, hwellFormed⟩ := ofMatrix_spec v.toList hsquare isYouXiangTu
  rw [hmade, eq_ofIntGraph (g := .ofMatrix v e isYouXiangTu) hwellFormed htaken.nodes
    (htaken.nodeNum.trans (Vector.length_toList ..)) htaken.isYouXiang]
  intro (i : Fin n) (j : Fin n)
  rw [htaken.cells, cell_ofVectors, cell_ofVectors]
  cases isYouXiangTu with
  | true => rfl
  | false =>
      simp only [IntGraph.Graph.ofMatrix, true_and, Bool.not_false, if_true,
        IntGraph.edge_copyLower, Fin.val_fin_lt]
      split <;> rfl

theorem addNode_ofIntGraph {g : IntGraph.Graph} (h : WellFormed (ofIntGraph g)) (val : Int) :
    (ofIntGraph g).addNode val = .ok (ofIntGraph (g.addNode val)) := by
  obtain ⟨g', hadded, hnode, hwellFormed⟩ := h.addNode val
  have hnodes : g'.nodes = (g.addNode val).nodes.toList := by
    rw [hnode.nodes]
    exact (Vector.toList_push ..).symm
  have hcells : ∀ i j : Fin (g.nodeNum + 1),
      cell g'.edges i j = some (IntGraph.edge (IntGraph.growEdges g.edges) i j) := by
    intro i j
    rw [IntGraph.edge_growEdges]
    by_cases hold : i.val < g.nodeNum ∧ j.val < g.nodeNum
    · rw [dif_pos hold, hnode.unchanged i j hold.1 hold.2]
      exact cell_ofVectors g.edges ⟨i, hold.1⟩ ⟨j, hold.2⟩
    · rw [dif_neg hold]
      obtain hi | hj : i.val = g.nodeNum ∨ j.val = g.nodeNum := by omega
      · rw [hi]
        exact (hnode.added j (Nat.lt_succ_iff.mp j.isLt)).2
      · rw [hj]
        exact (hnode.added i (Nat.lt_succ_iff.mp i.isLt)).1
  rw [hadded, eq_ofIntGraph (g := g.addNode val) hwellFormed hnodes hnode.nodeNum
    hnode.isYouXiang hcells]

theorem addEdge_ofIntGraph {g g' : IntGraph.Graph} (h : WellFormed (ofIntGraph g))
    {source target : Nat} {value : Int} (hadded : g.addEdge source target value = .ok g') :
    source < g.nodeNum ∧ target < g.nodeNum ∧
      (ofIntGraph g).addEdge source target value = .ok (ofIntGraph g') := by
  obtain ⟨i, j, rfl, rfl, rfl⟩ := IntGraph.addEdge_cases hadded
  refine ⟨i.isLt, j.isLt, ?_⟩
  have hi : (i : Int) < (ofIntGraph g).nodeNum := Int.ofNat_lt.mpr i.isLt
  have hj : (j : Int) < (ofIntGraph g).nodeNum := Int.ofNat_lt.mpr j.isLt
  obtain ⟨g'', hadded, hedge, hwellFormed⟩ :=
    h.addEdge (Int.natCast_nonneg i) hi (Int.natCast_nonneg j) hj value
  have hcells : ∀ a b : Fin g.nodeNum, cell g''.edges a b =
      some (IntGraph.edge (if !g.isYouXiang then
        IntGraph.setEdge (IntGraph.setEdge g.edges i j value) j i value
        else IntGraph.setEdge g.edges i j value) a b) := by
    intro a b
    have hold : cell (ofIntGraph g).edges a b = some (IntGraph.edge g.edges a b) :=
      cell_ofVectors g.edges a b
    have hdirected : (ofIntGraph g).isYouXiang = g.isYouXiang := rfl
    rw [hedge.cells, hold, hdirected]
    cases g.isYouXiang with
    | true =>
        simp only [Bool.not_true, Bool.false_eq_true, Bool.true_eq_false, if_false, false_and,
          IntGraph.edge_setEdge, Int.toNat_natCast, Fin.val_inj]
        split <;> rfl
    | false =>
        simp only [Bool.not_false, if_true, true_and, IntGraph.edge_setEdge, Int.toNat_natCast,
          Fin.val_inj]
        split
        · rfl
        · split <;> rfl
  rw [hadded]
  congr 1
  exact eq_ofIntGraph hwellFormed hedge.nodes hedge.nodeNum hedge.isYouXiang hcells

/-- The calls that make a graph of `IntGraph`, whose sizes are types, make the same graph here
and fault nowhere. -/
theorem built_ofIntGraph {g : IntGraph.Graph} (h : IntGraph.Built g) : Built (ofIntGraph g) := by
  induction h with
  | empty isYouXiangTu =>
      have hmade : ofIntGraph (.empty isYouXiangTu) = .empty isYouXiangTu := by
        simp [ofIntGraph, ofVectors, IntGraph.Graph.empty, Graph.empty]
      rw [hmade]
      exact .empty isYouXiangTu
  | @ofNodes n v isYouXiangTu =>
      have hmade : ofIntGraph (.ofNodes v isYouXiangTu) = .ofNodes v.toList isYouXiangTu := by
        simp [ofIntGraph, ofVectors, IntGraph.Graph.ofNodes, Graph.ofNodes, dummyValue,
          IntGraph.dummyValue]
      rw [hmade]
      exact .ofNodes v.toList isYouXiangTu
  | @ofMatrix n v e isYouXiangTu =>
      refine .ofMatrix ?_ (ofMatrix_ofIntGraph v e isYouXiangTu)
      rw [Vector.length_toList]
      exact square_ofVectors e
  | addNode _ val ih => exact .addNode ih (addNode_ofIntGraph (wellFormed_of_built ih) val)
  | @addEdge g g' source target value _ added ih =>
      obtain ⟨hsource, htarget, hadded⟩ := addEdge_ofIntGraph (wellFormed_of_built ih) added
      refine .addEdge ih ⟨by omega, ?_⟩ ⟨by omega, ?_⟩ hadded
      · exact_mod_cast hsource
      · exact_mod_cast htarget

/-- A directed graph of two nodes with an edge between them. -/
theorem built_ofIntGraph_edge :
    ∃ g, (IntGraph.Graph.ofNodes #v[3, 4] true).addEdge 0 1 7 = .ok g ∧
      Built (ofIntGraph g) := by
  have hadded : (IntGraph.Graph.ofNodes #v[3, 4] true).addEdge 0 1 7 = .ok _ := rfl
  exact ⟨_, hadded, built_ofIntGraph (.addEdge (.ofNodes #v[3, 4] true) hadded)⟩

end Refinement

end SkUtils.Containers.GraphMatrix
