import Mathlib.Data.Char
import SkUtils.Containers.GraphMatrix
import SkUtils.Containers.UnionFindSetMap

/-!
The generic `UnionFindSet<T>` that is built from a `Graph<T>`. `cnt` starts with the number
of nodes, while a value that several nodes have is one key of `parent`.
-/

namespace SkUtils.Containers.UnionFindFromGraph

open SkUtils.Library.ParentForest
open SkUtils.Containers.GraphMatrix
open SkUtils.Containers.UnionFindSetMap (UnionFindSet Failure Call exec emplace connect)

/-- A call that may also end with a fault of the graph. -/
abbrev Build (T α : Type) := ExceptT Fault (Call T) α

variable {T α β : Type}

def indexed (x : Except Fault α) : Build T α :=
  ExceptT.mk (pure x)

/-- `g.nodes[i]`. -/
def getNode (nodes : List T) (i : Nat) : Except Fault T :=
  match nodes[i]? with
  | some val => return val
  | none => throw .badIndex

/-- The columns of row `i` that the constructor reads. -/
def columns (g : Graph T) (i : Nat) : List Nat :=
  List.range (if g.isYouXiang then g.nodeNum else i)

section Code

variable [LinearOrder T]

def emplaceNode (val : T) : Build T Unit := do
  let _ ← emplace val val

def connectCell (g : Graph T) (i j : Nat) : Build T Unit := do
  let value ← indexed (getCell g.edges i j)
  if value ≠ dummyValue then
    connect (← indexed (getNode g.nodes i)) (← indexed (getNode g.nodes j))

/-- The loop over `j`. -/
def connectRow (g : Graph T) (i : Nat) : Build T Unit :=
  (columns g i).forM (connectCell g i)

/-- The body of the constructor. -/
def fill (g : Graph T) : Build T Unit := do
  g.nodes.forM emplaceNode
  (List.range g.nodeNum).forM (connectRow g)

/-- `UnionFindSet(Graph<T> g)`: what it ends with, and the set. -/
def ofGraph (g : Graph T) : Except (Failure T) (Except Fault Unit) × UnionFindSet T :=
  exec (fill g).run { cnt := g.nodeNum, parent := ∅ }

end Code

section Exec

variable {s s' : UnionFindSet T}

theorem exec_run_bind {call : Build T α} {next : α → Build T β} {a : α}
    (h : exec call.run s = (.ok (.ok a), s')) :
    exec (call >>= next).run s = exec (next a).run s' := by
  change exec (call.run >>= ExceptT.bindCont next) s = _
  rw [UnionFindSetMap.exec_bind_ok h]
  rfl

theorem exec_run_lift {call : Call T α} {a : α} (h : exec call s = (.ok a, s')) :
    exec (liftM call : Build T α).run s = (.ok (.ok a), s') := by
  change exec (Except.ok <$> call) s = _
  rw [map_eq_pure_bind, UnionFindSetMap.exec_bind_ok h]
  rfl

theorem exec_run_forM {f : α → Build T Unit} {a : α} {as : List α}
    (h : exec (f a).run s = (.ok (.ok ⟨⟩), s')) :
    exec ((a :: as).forM f).run s = exec (as.forM f).run s' :=
  exec_run_bind h

theorem exec_run_indexed {x : Except Fault α} {a : α} (h : x = .ok a) (s : UnionFindSet T) :
    exec (indexed x : Build T α).run s = (.ok (.ok a), s) := by
  subst h
  rfl

end Exec

section Shift

/-- `cnt` is off by `k`. -/
def shift (k : Int) (s : UnionFindSet T) : UnionFindSet T :=
  { s with cnt := s.cnt + k }

/-- A call that does not look at `cnt`. -/
def IgnoresCnt (call : Call T α) : Prop :=
  ∀ k s, exec call (shift k s) = ((exec call s).1, shift k (exec call s).2)

theorem ignoresCnt_pure (a : α) : IgnoresCnt (pure a : Call T α) := fun _ _ => rfl

theorem ignoresCnt_throw (e : Failure T) : IgnoresCnt (throw e : Call T α) := fun _ _ => rfl

theorem IgnoresCnt.bind {call : Call T α} {next : α → Call T β} (h : IgnoresCnt call)
    (hnext : ∀ a, IgnoresCnt (next a)) : IgnoresCnt (call >>= next) := by
  intro k s
  rw [UnionFindSetMap.exec_bind, UnionFindSetMap.exec_bind, h k s]
  rcases exec call s with ⟨e | a, s'⟩
  · rfl
  · exact hnext a k s'

theorem ignoresCnt_get {next : UnionFindSet T → Call T α}
    (hsame : ∀ k s, next (shift k s) = next s) (hnext : ∀ s, IgnoresCnt (next s)) :
    IgnoresCnt (get >>= next) := by
  intro k s
  rw [UnionFindSetMap.exec_bind_ok (UnionFindSetMap.exec_get _),
    UnionFindSetMap.exec_bind_ok (UnionFindSetMap.exec_get _), hsame]
  exact hnext s k s

variable [LinearOrder T]

theorem ignoresCnt_findFrom (fuel : Nat) (key : T) :
    IgnoresCnt (UnionFindSetMap.findFrom fuel key) := by
  induction fuel generalizing key with
  | zero => exact ignoresCnt_throw _
  | succ fuel ih =>
      unfold UnionFindSetMap.findFrom
      refine ignoresCnt_get (fun _ _ => rfl) fun s => ?_
      split
      · exact ignoresCnt_throw _
      · split
        · exact ignoresCnt_pure _
        · exact ih _

theorem ignoresCnt_find (key : T) : IgnoresCnt (UnionFindSetMap.find key) :=
  ignoresCnt_get (fun _ _ => rfl) fun _ => ignoresCnt_findFrom _ key

theorem ignoresCnt_connect (key1 key2 : T) : IgnoresCnt (connect key1 key2) := by
  refine (ignoresCnt_find key1).bind fun r1 => (ignoresCnt_find key2).bind fun r2 => ?_
  split
  · intro k s
    simp [shift]
    omega
  · exact ignoresCnt_pure _

end Shift

section Loops

open SkUtils.Containers.UnionFindSetMap (Invariant KeysAdded)

variable [LinearOrder T] {s : UnionFindSet T} {rel : T → T → Prop} {k : Int}

/-- A new key is not counted by `emplace`. -/
theorem exec_emplaceNode (h : Invariant s rel) (k : Int) (v : T) :
    ∃ s' k', exec (emplaceNode v : Build T Unit).run (shift k s) =
        (.ok (.ok ⟨⟩), shift k' s') ∧ Invariant s' rel ∧ KeysAdded s s' (· = v) ∧
      (v ∈ s.parent → k' = k) ∧ (v ∉ s.parent → k' = k - 1) := by
  by_cases hv : v ∈ s.parent
  · have hexec : exec (emplace v v) (shift k s) = (.ok false, shift k s) := by
      rw [UnionFindSetMap.exec_emplace]
      exact if_pos hv
    refine ⟨s, k, ?_, h, fun x => ?_, fun _ => rfl, fun hnot => absurd hv hnot⟩
    · exact exec_run_bind (exec_run_lift hexec)
    · exact ⟨.inl, fun hx => hx.elim id fun hxv => hxv ▸ hv⟩
  · have hshift : shift (k - 1) { parent := s.parent.insert v v, cnt := s.cnt + 1 } =
        { shift k s with parent := s.parent.insert v v } := by
      simp [shift]
    have hexec : exec (emplace v v) (shift k s) =
        (.ok true, shift (k - 1) { parent := s.parent.insert v v, cnt := s.cnt + 1 }) := by
      rw [UnionFindSetMap.exec_emplace, hshift]
      exact if_neg hv
    refine ⟨_, k - 1, ?_, h.insert_key hv, fun x => ?_, fun hmem => absurd hmem hv, fun _ => rfl⟩
    · exact exec_run_bind (exec_run_lift hexec)
    · exact (AList.mem_insert _).trans or_comm

theorem exec_emplaceAll (h : Invariant s rel) (k : Int) (vals : List T) :
    ∃ s' k', exec (vals.forM emplaceNode : Build T Unit).run (shift k s) =
        (.ok (.ok ⟨⟩), shift k' s') ∧ Invariant s' rel ∧
      KeysAdded s s' (· ∈ vals) ∧ k - vals.length ≤ k' ∧
      (k' = k - vals.length ↔ vals.Nodup ∧ ∀ val ∈ vals, val ∉ s.parent) := by
  induction vals generalizing s k with
  | nil => exact ⟨s, k, rfl, h, fun x => by simp, by simp, by simp⟩
  | cons v vals ih =>
      obtain ⟨s₁, k₁, hexec, h₁, hkeys₁, hold, hnew⟩ := exec_emplaceNode h k v
      obtain ⟨s₂, k₂, hrest, h₂, hkeys₂, hle, hiff⟩ := ih h₁ k₁
      refine ⟨s₂, k₂, ?_, h₂, fun x => ?_, ?_, ?_⟩
      · rw [exec_run_forM hexec]
        exact hrest
      · rw [hkeys₂ x, hkeys₁ x]
        simp only [List.mem_cons, or_assoc]
      · by_cases hv : v ∈ s.parent
        · have := hold hv
          simp only [List.length_cons]
          omega
        · have := hnew hv
          simp only [List.length_cons]
          omega
      · rw [List.nodup_cons, List.forall_mem_cons]
        by_cases hv : v ∈ s.parent
        · have := hold hv
          refine iff_of_false (fun heq => ?_) fun hall => hall.2.1 hv
          simp only [List.length_cons] at heq
          omega
        · have hk := hnew hv
          have hshift : k₂ = k - (v :: vals).length ↔ k₂ = k₁ - vals.length := by
            simp only [List.length_cons]
            omega
          have hfirst := fun w => hkeys₁ w
          rw [hshift, hiff]
          simp only [hfirst, not_or]
          constructor
          · rintro ⟨hnodup, hall⟩
            exact ⟨⟨fun hmem => (hall v hmem).2 rfl, hnodup⟩, hv, fun w hw => (hall w hw).1⟩
          · rintro ⟨⟨hnot, hnodup⟩, -, hall⟩
            exact ⟨hnodup, fun w hw => ⟨hall w hw, fun heq => hnot (heq ▸ hw)⟩⟩

/-- All keys are there, and `cnt` is off by `k`. -/
def Filled (g : Graph T) (k : Int) (s : UnionFindSet T) : Prop :=
  ∃ s' rel, s = shift k s' ∧ Invariant s' rel ∧ ∀ val ∈ g.nodes, val ∈ s'.parent

theorem Filled.connect {g : Graph T} (h : Filled g k s) {a b : T} (ha : a ∈ g.nodes)
    (hb : b ∈ g.nodes) : ∃ s', exec (connect a b) s = (.ok ⟨⟩, s') ∧ Filled g k s' := by
  obtain ⟨t, rel, rfl, ht, hkeys⟩ := h
  obtain ⟨t', hexec, ht', hadded⟩ := ht.connect (hkeys a ha) (hkeys b hb)
  refine ⟨shift k t', ?_, t', _, rfl, ht', fun val hval => (hadded val).mpr (.inl (hkeys val hval))⟩
  rw [ignoresCnt_connect a b k t, hexec]

omit [LinearOrder T] in
theorem getNode_eq_ok {nodes : List T} {i : Nat} (h : i < nodes.length) :
    getNode nodes i = .ok nodes[i] := by
  rw [getNode, List.getElem?_eq_getElem h]
  rfl

theorem Filled.cell {g : Graph T} (wellFormed : WellFormed g) (h : Filled g k s) {i j : Nat}
    (hi : i < g.nodeNum) (hj : j < g.nodeNum) :
    ∃ s', exec (connectCell g i j).run s = (.ok (.ok ⟨⟩), s') ∧ Filled g k s' := by
  obtain ⟨value, hvalue⟩ := wellFormed.square.exists_cell hi hj
  rw [← wellFormed.nodes_length] at hi hj
  unfold connectCell
  rw [exec_run_bind (exec_run_indexed (getCell_eq_ok hvalue) s)]
  by_cases hedge : value ≠ dummyValue
  · obtain ⟨s', hexec, hs'⟩ := h.connect (List.getElem_mem hi) (List.getElem_mem hj)
    refine ⟨s', ?_, hs'⟩
    rw [if_pos hedge, exec_run_bind (exec_run_indexed (getNode_eq_ok hi) s),
      exec_run_bind (exec_run_indexed (getNode_eq_ok hj) s)]
    exact exec_run_lift hexec
  · rw [if_neg hedge]
    exact ⟨s, rfl, h⟩

/-- A loop whose rounds keep the keys and the offset of `cnt`. -/
theorem Filled.loop {g : Graph T} {f : Nat → Build T Unit} {is : List Nat}
    (hround : ∀ i ∈ is, ∀ s, Filled g k s →
      ∃ s', exec (f i).run s = (.ok (.ok ⟨⟩), s') ∧ Filled g k s') (h : Filled g k s) :
    ∃ s', exec (is.forM f).run s = (.ok (.ok ⟨⟩), s') ∧ Filled g k s' := by
  induction is generalizing s with
  | nil => exact ⟨s, rfl, h⟩
  | cons i is ih =>
      obtain ⟨hfirst, hrest⟩ := List.forall_mem_cons.mp hround
      obtain ⟨s₁, hexec, h₁⟩ := hfirst s h
      obtain ⟨s₂, hexec₂, h₂⟩ := ih hrest h₁
      refine ⟨s₂, ?_, h₂⟩
      rw [exec_run_forM hexec]
      exact hexec₂

theorem Filled.row {g : Graph T} (wellFormed : WellFormed g) (h : Filled g k s) {i : Nat}
    (hi : i < g.nodeNum) :
    ∃ s', exec (connectRow g i).run s = (.ok (.ok ⟨⟩), s') ∧ Filled g k s' := by
  refine h.loop fun j hj s hs => hs.cell wellFormed hi ?_
  have hlt := List.mem_range.mp hj
  split at hlt
  · exact hlt
  · exact Nat.lt_trans hlt hi

/-- The roots of the parent map. -/
noncomputable def roots (s : UnionFindSet T) : Nat :=
  Nat.card {r // r ∈ s.parent ∧ IsRoot (UnionFindSetMap.parentFn s.parent) r}

/-- `count()`. -/
def count (s : UnionFindSet T) : Int :=
  s.cnt

theorem count_ofGraph_iff (T : Type) [LinearOrder T] (g : Graph T) (built : Built g) :
    ∃ s, ofGraph g = (.ok (.ok ⟨⟩), s) ∧ (count s = roots s ↔ g.nodes.Nodup) := by
  have wellFormed := wellFormed_of_built built
  obtain ⟨s₁, k, hnodes, h₁, hkeys, -, hiff⟩ :=
    exec_emplaceAll UnionFindSetMap.invariant_empty (g.nodeNum : Int) g.nodes
  have hfilled : Filled g k (shift k s₁) :=
    ⟨s₁, _, rfl, h₁, fun val hval => (hkeys val).mpr (.inr hval)⟩
  obtain ⟨s₂, hrows, s₃, rel, rfl, h₃, -⟩ := hfilled.loop
    fun i hi s hs => hs.row wellFormed (List.mem_range.mp hi)
  have hstart : ({ cnt := g.nodeNum, parent := ∅ } : UnionFindSet T) =
      shift g.nodeNum UnionFindSetMap.empty := by
    simp [shift, UnionFindSetMap.empty]
  refine ⟨shift k s₃, ?_, ?_⟩
  · rw [ofGraph, hstart, fill, exec_run_bind hnodes]
    exact hrows
  · have hcnt : count (shift k s₃) = roots (shift k s₃) + k := by
      change s₃.cnt + k = _
      rw [h₃.cnt]
      rfl
    have hzero : k = 0 ↔ g.nodes.Nodup := by
      rw [wellFormed.nodes_length, sub_self] at hiff
      rw [hiff]
      exact and_iff_left fun val _ => AList.notMem_empty val
    rw [hcnt, ← hzero]
    omega

end Loops

theorem count_ofGraph_iff_ofNodes :
    ∃ s, ofGraph (.ofNodes ['c', 'h'] true) = (.ok (.ok ⟨⟩), s) ∧
      (count s = roots s ↔ ['c', 'h'].Nodup) :=
  count_ofGraph_iff Char (.ofNodes ['c', 'h'] true) (.ofNodes _ _)

theorem roots_le_one {T : Type} [LinearOrder T] {s : UnionFindSet T} {a : T}
    (h : ∀ r ∈ s.parent, r = a) : roots s ≤ 1 := by
  have hsubset : {r | r ∈ s.parent ∧ IsRoot (UnionFindSetMap.parentFn s.parent) r} ⊆ {a} :=
    fun r hr => h r hr.1
  have hcard := Set.ncard_le_ncard hsubset (Set.finite_singleton a)
  rw [Set.ncard_singleton] at hcard
  exact hcard

/-- Two nodes with one value: `cnt` is 2 and `parent` has one key. (`UnionFindSet<int>` is a
class of its own, keyed by the index.) -/
theorem count_ofGraph_repeated :
    ¬ ∀ (T : Type) [LinearOrder T] (g : Graph T), Built g →
      ∃ s, ofGraph g = (.ok (.ok ⟨⟩), s) ∧ count s = roots s := by
  intro h
  obtain ⟨s, hofGraph, hcount⟩ := h Char (.ofNodes ['g', 'g'] false) (.ofNodes _ _)
  have hset : ofGraph (.ofNodes ['g', 'g'] false) =
      (.ok (.ok ⟨⟩), { cnt := 2, parent := AList.insert 'g' 'g' ∅ }) := rfl
  obtain ⟨-, hs⟩ := Prod.mk.inj (hofGraph.symm.trans hset)
  have hkey : ∀ r ∈ s.parent, r = 'g' := by
    rw [hs]
    exact fun r hr => ((AList.mem_insert _).mp hr).resolve_right (AList.notMem_empty r)
  have hroots := Int.ofNat_le.mpr (roots_le_one hkey)
  rw [← hcount, hs] at hroots
  exact absurd hroots (by decide)

end SkUtils.Containers.UnionFindFromGraph
