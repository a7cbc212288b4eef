import Mathlib.Data.List.FinRange

/-!
`Graph<int>` of `graph.h`: its constructors, `addNode` and `addEdge`. The sizes of `nodes`
and of the rows and columns of `edges` are `nodeNum` by their types.
-/

namespace SkUtils.Containers.IntGraph

def dummyValue : Int := 0

structure Graph where
  isYouXiang : Bool
  nodeNum : Nat
  nodes : Vector Int nodeNum
  edges : Vector (Vector Int nodeNum) nodeNum

section Matrix

variable {n : Nat}

def edge (edges : Vector (Vector Int n) n) (i j : Fin n) : Int :=
  have hi := i.isLt
  have hj := j.isLt
  edges[i][j]

def setEdge (edges : Vector (Vector Int n) n) (i j : Fin n) (value : Int) :
    Vector (Vector Int n) n :=
  have hi := i.isLt
  have hj := j.isLt
  edges.set i (edges[i].set j value)

/-- The loops of the matrix constructor of an undirected graph. -/
def copyLower (edges : Vector (Vector Int n) n) : Vector (Vector Int n) n :=
  (List.finRange n).foldl (fun edges i =>
    ((List.finRange n).filter fun j => i < j).foldl (fun edges j =>
      setEdge edges i j (edge edges j i)) edges) edges

/-- What `addNode` does to the matrix. -/
def growEdges (edges : Vector (Vector Int n) n) : Vector (Vector Int (n + 1)) (n + 1) :=
  (edges.map fun row => row.push dummyValue).push (Vector.replicate (n + 1) dummyValue)

theorem edge_growEdges (edges : Vector (Vector Int n) n) (i j : Fin (n + 1)) :
    edge (growEdges edges) i j =
      if h : i.val < n ∧ j.val < n then edge edges ⟨i, h.1⟩ ⟨j, h.2⟩ else dummyValue := by
  by_cases hi : i.val < n <;> by_cases hj : j.val < n <;>
    simp [edge, growEdges, Vector.getElem_push, hi, hj]

theorem edge_setEdge (edges : Vector (Vector Int n) n) (i j a b : Fin n) (value : Int) :
    edge (setEdge edges i j value) a b =
      if a = i ∧ b = j then value else edge edges a b := by
  by_cases hai : a = i
  · subst a
    by_cases hbj : b = j
    · subst b
      simp [edge, setEdge]
    · have hne : j.val ≠ b.val := fun h => hbj (Fin.ext h.symm)
      simp [edge, setEdge, hbj, hne]
  · have hne : i.val ≠ a.val := fun h => hai (Fin.ext h.symm)
    simp [edge, setEdge, hai, hne]

/-- Copies into the upper triangle read only what no copy writes. -/
theorem edge_copies {cells : List (Fin n × Fin n)} (hupper : ∀ c ∈ cells, c.1 < c.2)
    (edges : Vector (Vector Int n) n) (a b : Fin n) :
    edge (cells.foldl (fun edges c => setEdge edges c.1 c.2 (edge edges c.2 c.1)) edges) a b =
      if (a, b) ∈ cells then edge edges b a else edge edges a b := by
  induction cells generalizing edges with
  | nil => simp
  | cons c cells ih =>
      obtain ⟨hc, hcells⟩ := List.forall_mem_cons.mp hupper
      rw [List.foldl_cons, ih hcells, edge_setEdge, edge_setEdge]
      have hlower : a < b → ¬ (b = c.1 ∧ a = c.2) := by
        rintro hab ⟨rfl, rfl⟩
        exact absurd hab (lt_asymm hc)
      by_cases hmem : (a, b) ∈ cells
      · rw [if_pos hmem, if_neg (hlower (hcells _ hmem)), if_pos (List.mem_cons_of_mem c hmem)]
      · rw [if_neg hmem]
        by_cases hac : a = c.1 ∧ b = c.2
        · rw [if_pos hac, if_pos (List.mem_cons.mpr (.inl (Prod.ext hac.1 hac.2))), hac.1, hac.2]
        · rw [if_neg hac, if_neg]
          rintro hab
          rcases List.mem_cons.mp hab with rfl | hab
          · exact hac ⟨rfl, rfl⟩
          · exact hmem hab

def upperCells (n : Nat) : List (Fin n × Fin n) :=
  (List.finRange n).flatMap fun i => ((List.finRange n).filter fun j => i < j).map fun j => (i, j)

theorem mem_upperCells {a b : Fin n} : (a, b) ∈ upperCells n ↔ a < b := by
  simp [upperCells]

theorem copyLower_eq (edges : Vector (Vector Int n) n) :
    copyLower edges =
      (upperCells n).foldl (fun edges c => setEdge edges c.1 c.2 (edge edges c.2 c.1)) edges := by
  rw [upperCells, List.foldl_flatMap]
  simp only [List.foldl_map]
  rfl

theorem edge_copyLower (edges : Vector (Vector Int n) n) (a b : Fin n) :
    edge (copyLower edges) a b = if a < b then edge edges b a else edge edges a b := by
  rw [copyLower_eq, edge_copies fun c hc => mem_upperCells.mp hc]
  simp only [mem_upperCells]

def Symmetric (edges : Vector (Vector Int n) n) : Prop :=
  ∀ i j, edge edges i j = edge edges j i

theorem symmetric_replicate :
    Symmetric (Vector.replicate n (Vector.replicate n dummyValue)) := by
  intro i j
  simp [edge]

theorem symmetric_copyLower (edges : Vector (Vector Int n) n) : Symmetric (copyLower edges) := by
  intro i j
  rw [edge_copyLower, edge_copyLower]
  rcases lt_trichotomy i j with hij | rfl | hij
  · rw [if_pos hij, if_neg (lt_asymm hij)]
  · rfl
  · rw [if_neg (lt_asymm hij), if_pos hij]

theorem Symmetric.growEdges {edges : Vector (Vector Int n) n} (h : Symmetric edges) :
    Symmetric (growEdges edges) := by
  intro i j
  rw [edge_growEdges, edge_growEdges]
  by_cases hij : i.val < n ∧ j.val < n
  · rw [dif_pos hij, dif_pos hij.symm]
    exact h _ _
  · rw [dif_neg hij, dif_neg fun hji => hij hji.symm]

theorem Symmetric.setEdge_setEdge {edges : Vector (Vector Int n) n} (h : Symmetric edges)
    (i j : Fin n) (value : Int) : Symmetric (setEdge (setEdge edges i j value) j i value) := by
  intro a b
  simp only [edge_setEdge, and_comm (a := b = _), h b a]
  split
  · split <;> rfl
  · rfl

end Matrix

namespace Graph

/-- The default constructor. -/
def empty (isYouXiangTu : Bool) : Graph where
  isYouXiang := isYouXiangTu
  nodeNum := 0
  nodes := #v[]
  edges := #v[]

def ofNodes {n : Nat} (v : Vector Int n) (isYouXiangTu : Bool) : Graph where
  isYouXiang := isYouXiangTu
  nodeNum := n
  nodes := v
  edges := Vector.replicate n (Vector.replicate n dummyValue)

def ofMatrix {n : Nat} (v : Vector Int n) (e : Vector (Vector Int n) n) (isYouXiangTu : Bool) :
    Graph where
  isYouXiang := isYouXiangTu
  nodeNum := n
  nodes := v
  edges := if !isYouXiangTu then copyLower e else e

def addNode (g : Graph) (val : Int) : Graph where
  isYouXiang := g.isYouXiang
  nodeNum := g.nodeNum + 1
  nodes := g.nodes.push val
  edges := growEdges g.edges

/-- `addEdge(from, to, value)` for indices that are not negative. -/
def addEdge (g : Graph) (source target : Nat) (value : Int) : Except String Graph :=
  if h : source ≥ g.nodeNum ∨ target ≥ g.nodeNum then .error "node unexist"
  else if source ≥ g.edges.size then .error "edge auto expand false"
  else
    let source : Fin g.nodeNum := ⟨source, by omega⟩
    let target : Fin g.nodeNum := ⟨target, by omega⟩
    let edges := setEdge g.edges source target value
    .ok { g with
      edges := if !g.isYouXiang then setEdge edges target source value else edges }

end Graph

/-- The graphs that the constructors, `addNode` and `addEdge` make. -/
inductive Built : Graph → Prop
  | empty (isYouXiangTu : Bool) : Built (.empty isYouXiangTu)
  | ofNodes {n : Nat} (v : Vector Int n) (isYouXiangTu : Bool) : Built (.ofNodes v isYouXiangTu)
  | ofMatrix {n : Nat} (v : Vector Int n) (e : Vector (Vector Int n) n) (isYouXiangTu : Bool) :
      Built (.ofMatrix v e isYouXiangTu)
  | addNode {g : Graph} (built : Built g) (val : Int) : Built (g.addNode val)
  | addEdge {g g' : Graph} {source target : Nat} {value : Int} (built : Built g)
      (added : g.addEdge source target value = .ok g') : Built g'

theorem addEdge_cases {g g' : Graph} {source target : Nat} {value : Int}
    (h : g.addEdge source target value = .ok g') :
    ∃ i j : Fin g.nodeNum, i.val = source ∧ j.val = target ∧ g' = { g with
      edges :=
        if !g.isYouXiang then setEdge (setEdge g.edges i j value) j i value
        else setEdge g.edges i j value } := by
  unfold Graph.addEdge at h
  split at h
  case isTrue => cases h
  case isFalse hrange =>
      split at h
      case isTrue => cases h
      case isFalse =>
          exact ⟨⟨source, by omega⟩, ⟨target, by omega⟩, rfl, rfl, (Except.ok.inj h).symm⟩

/-- An undirected graph has every edge in both directions. -/
theorem symmetric_of_built {g : Graph} (h : Built g) (undirected : g.isYouXiang = false) :
    Symmetric g.edges := by
  induction h with
  | empty _ => exact fun i => i.elim0
  | ofNodes v _ => exact symmetric_replicate
  | ofMatrix v e isYouXiangTu =>
      obtain rfl : isYouXiangTu = false := undirected
      exact symmetric_copyLower e
  | addNode _ val ih => exact (ih undirected).growEdges
  | @addEdge g g' source target value _ added ih =>
      obtain ⟨i, j, -, -, rfl⟩ := addEdge_cases added
      have hundirected : g.isYouXiang = false := undirected
      change Symmetric (if !g.isYouXiang then _ else _)
      rw [hundirected]
      exact (ih hundirected).setEdge_setEdge i j value

end SkUtils.Containers.IntGraph
