import Mathlib.Combinatorics.SimpleGraph.Connectivity.Connected
import SkUtils.Containers.IntGraph
import SkUtils.Containers.UnionFindConnectivity

/-!
The `UnionFindSet<int>` that is built from a `Graph<int>`. Of an undirected graph it reads
the lower triangle only, which holds every edge because the matrix is symmetric.
-/

namespace SkUtils.Containers.GraphComponents

open Relation
open SkUtils.Library.ParentForest
open SkUtils.Containers.IntGraph
open SkUtils.Containers.UnionFindSetInt
open SkUtils.Containers.UnionFindConnectivity

/-- The columns of row `i` that the constructor reads. -/
def columns (g : IntGraph.Graph) (i : Fin g.nodeNum) : List (Fin g.nodeNum) :=
  if g.isYouXiang then List.finRange g.nodeNum
  else (List.finRange g.nodeNum).filter fun j => j < i

/-- `UnionFindSet<int>(Graph<int> g)`. -/
def ofGraph (g : IntGraph.Graph) : Option (UnionFindSet g.nodeNum) :=
  (List.finRange g.nodeNum).foldlM (fun s i =>
    (columns g i).foldlM (fun s j =>
      if edge g.edges i j ≠ dummyValue then s.connect i j else some s) s) (ofSize g.nodeNum)

def IsEdge (g : IntGraph.Graph) (i j : Fin g.nodeNum) : Prop :=
  edge g.edges i j ≠ dummyValue

/-- The non-zero entries that the constructor reads. -/
def Reads (g : IntGraph.Graph) (i j : Fin g.nodeNum) : Prop :=
  j ∈ columns g i ∧ IsEdge g i j

section Loops

variable {g : IntGraph.Graph} {s : UnionFindSet g.nodeNum}
  {rel : Fin g.nodeNum → Fin g.nodeNum → Prop}

theorem row_spec (h : Invariant s rel) (i : Fin g.nodeNum) (js : List (Fin g.nodeNum)) :
    ∃ s', js.foldlM (fun s j =>
        if edge g.edges i j ≠ dummyValue then s.connect i j else some s) s = some s' ∧
      Invariant s' fun a b => rel a b ∨ a = i ∧ b ∈ js ∧ IsEdge g a b := by
  induction js generalizing s rel with
  | nil => exact ⟨s, rfl, h.congr (by simp)⟩
  | cons j js ih =>
      by_cases hedge : edge g.edges i j ≠ dummyValue
      · obtain ⟨s₁, hconnect, h₁⟩ := h.connect i j
        obtain ⟨s₂, hrest, h₂⟩ := ih h₁
        refine ⟨s₂, ?_, h₂.congr fun a b => ?_⟩
        · rw [List.foldlM_cons, if_pos hedge, hconnect]
          exact hrest
        · simp only [join, List.mem_cons, IsEdge]
          constructor
          · rintro ((hrel | ⟨rfl, rfl⟩) | ⟨rfl, hb, hab⟩)
            · exact .inl hrel
            · exact .inr ⟨rfl, .inl rfl, hedge⟩
            · exact .inr ⟨rfl, .inr hb, hab⟩
          · rintro (hrel | ⟨rfl, rfl | hb, hab⟩)
            · exact .inl (.inl hrel)
            · exact .inl (.inr ⟨rfl, rfl⟩)
            · exact .inr ⟨rfl, hb, hab⟩
      · obtain ⟨s₂, hrest, h₂⟩ := ih h
        refine ⟨s₂, ?_, h₂.congr fun a b => ?_⟩
        · rw [List.foldlM_cons, if_neg hedge]
          exact hrest
        · simp only [List.mem_cons, IsEdge]
          constructor
          · rintro (hrel | ⟨rfl, hb, hab⟩)
            · exact .inl hrel
            · exact .inr ⟨rfl, .inr hb, hab⟩
          · rintro (hrel | ⟨rfl, rfl | hb, hab⟩)
            · exact .inl hrel
            · exact absurd hab hedge
            · exact .inr ⟨rfl, hb, hab⟩

theorem rows_spec (h : Invariant s rel) (is : List (Fin g.nodeNum)) :
    ∃ s', is.foldlM (fun s i => (columns g i).foldlM (fun s j =>
        if edge g.edges i j ≠ dummyValue then s.connect i j else some s) s) s = some s' ∧
      Invariant s' fun a b => rel a b ∨ a ∈ is ∧ Reads g a b := by
  induction is generalizing s rel with
  | nil => exact ⟨s, rfl, h.congr (by simp)⟩
  | cons i is ih =>
      obtain ⟨s₁, hrow, h₁⟩ := row_spec h i (columns g i)
      obtain ⟨s₂, hrest, h₂⟩ := ih h₁
      refine ⟨s₂, ?_, h₂.congr fun a b => ?_⟩
      · rw [List.foldlM_cons, hrow]
        exact hrest
      · simp only [List.mem_cons, Reads]
        constructor
        · rintro ((hrel | ⟨rfl, hab⟩) | ⟨ha, hab⟩)
          · exact .inl hrel
          · exact .inr ⟨.inl rfl, hab⟩
          · exact .inr ⟨.inr ha, hab⟩
        · rintro (hrel | ⟨rfl | ha, hab⟩)
          · exact .inl (.inl hrel)
          · exact .inl (.inr ⟨rfl, hab⟩)
          · exact .inr ⟨ha, hab⟩

theorem queries_spec (h : Invariant s rel) (queries : List (Fin g.nodeNum × Fin g.nodeNum)) :
    ∃ s', queries.foldlM (fun s q => (s.isConnected q.1 q.2).map Prod.fst) s = some s' ∧
      Compressed s s' := by
  induction queries generalizing s with
  | nil => exact ⟨s, rfl, .refl s⟩
  | cons q queries ih =>
      obtain ⟨s₁, result, hresult, hs₁, -⟩ := h.isConnected q.1 q.2
      obtain ⟨s₂, hrest, hs₂⟩ := ih (h.compressed hs₁)
      refine ⟨s₂, ?_, hs₁.trans hs₂⟩
      rw [List.foldlM_cons, hresult]
      exact hrest

theorem ofGraph_spec (g : IntGraph.Graph) :
    ∃ s, ofGraph g = some s ∧ Invariant s (Reads g) := by
  obtain ⟨s, hrows, hs⟩ := rows_spec (g := g) invariant_ofSize (List.finRange g.nodeNum)
  exact ⟨s, hrows, hs.congr (by simp)⟩

end Loops

section Components

/-- The graph on the node indices with the edges taken in either direction. -/
def edgeGraph (g : IntGraph.Graph) : SimpleGraph (Fin g.nodeNum) :=
  SimpleGraph.fromRel (IsEdge g)

theorem reads_or_reads {g : IntGraph.Graph} (h : Built g) {i j : Fin g.nodeNum} (hij : i ≠ j)
    (hedge : IsEdge g i j) : Reads g i j ∨ Reads g j i := by
  cases hdirected : g.isYouXiang with
  | true => exact .inl ⟨by simp [columns, hdirected], hedge⟩
  | false =>
      rcases lt_or_gt_of_ne hij with hlt | hgt
      · refine .inr ⟨by simp [columns, hdirected, hlt], ?_⟩
        rw [IsEdge, symmetric_of_built h hdirected]
        exact hedge
      · exact .inl ⟨by simpa [columns, hdirected] using hgt, hedge⟩

theorem eqvGen_reads_iff {g : IntGraph.Graph} (h : Built g) (i j : Fin g.nodeNum) :
    EqvGen (Reads g) i j ↔ (edgeGraph g).Reachable i j := by
  constructor
  · intro hgen
    induction hgen with
    | rel a b hreads =>
        rcases eq_or_ne a b with rfl | hab
        · exact .refl a
        · refine SimpleGraph.Adj.reachable ?_
          rw [edgeGraph, SimpleGraph.fromRel_adj]
          exact ⟨hab, .inl hreads.2⟩
    | refl a => exact .refl a
    | symm _ _ _ ih => exact ih.symm
    | trans _ _ _ _ _ ih ih' => exact ih.trans ih'
  · intro hreach
    rw [SimpleGraph.reachable_iff_reflTransGen] at hreach
    induction hreach with
    | refl => exact .refl i
    | @tail a b _ hadj ih =>
        rw [edgeGraph, SimpleGraph.fromRel_adj] at hadj
        obtain ⟨hab, hedge⟩ := hadj
        refine ih.trans _ _ _ ?_
        have hreads : Reads g a b ∨ Reads g b a :=
          hedge.elim (reads_or_reads h hab) fun hba => (reads_or_reads h hab.symm hba).symm
        exact hreads.elim (.rel _ _) fun hba => .symm _ _ (.rel _ _ hba)

theorem card_components {g : IntGraph.Graph} (h : Built g) :
    Nat.card (Quotient (EqvGen.setoid (Reads g))) = Nat.card (edgeGraph g).ConnectedComponent :=
  Nat.card_congr (Quot.congrRight (eqvGen_reads_iff h))

end Components

/-- Every query of the set that is built from a graph answers for its components. -/
theorem isConnected_iff_reachable {g : IntGraph.Graph} (h : Built g) :
    ∃ s, ofGraph g = some s ∧
      s.cnt = Nat.card (edgeGraph g).ConnectedComponent ∧
      ∀ queries : List (Fin g.nodeNum × Fin g.nodeNum),
        ∃ s', queries.foldlM (fun s q => (s.isConnected q.1 q.2).map Prod.fst) s = some s' ∧
          s'.cnt = s.cnt ∧
          ∀ i j, ∃ s'' result, s'.isConnected i j = some (s'', result) ∧
            (result = true ↔ (edgeGraph g).Reachable i j) := by
  obtain ⟨s, hbuilt, hs⟩ := ofGraph_spec g
  refine ⟨s, hbuilt, ?_, fun queries => ?_⟩
  · rw [hs.cnt, hs.represents.card_roots, card_components h]
  · obtain ⟨s', hqueries, hcompressed⟩ := queries_spec hs queries
    refine ⟨s', hqueries, hcompressed.cnt, fun i j => ?_⟩
    obtain ⟨s'', result, hresult, -, hiff⟩ := (hs.compressed hcompressed).isConnected i j
    exact ⟨s'', result, hresult, hiff.trans (eqvGen_reads_iff h i j)⟩

/-- Two joined nodes, given by the lower triangle, and a third one. -/
def twoComponents : IntGraph.Graph :=
  (Graph.ofMatrix #v[7, 8] #v[#v[0, 0], #v[1, 0]] false).addNode 9

theorem isConnected_iff_reachable_twoComponents :
    Nat.card (edgeGraph twoComponents).ConnectedComponent = 2 := by
  obtain ⟨s, hbuilt, hcnt, -⟩ := isConnected_iff_reachable (g := twoComponents)
    (.addNode (.ofMatrix #v[7, 8] #v[#v[0, 0], #v[1, 0]] false) 9)
  have hcount : (ofGraph twoComponents).map (fun s => s.cnt) = some 2 := by decide +kernel
  rw [hbuilt] at hcount
  have htwo : s.cnt = 2 := Option.some.inj hcount
  omega

end SkUtils.Containers.GraphComponents
