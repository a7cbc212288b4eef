import Mathlib.Algebra.Order.Ring.Rat
import Mathlib.Logic.Function.Basic
import Mathlib.Order.Defs.LinearOrder
import SkUtils.Library.CheckedLoop
import SkUtils.Library.LinkedChain

/-!
`SkipList<K, V>` of `skiplist.h`, with its nodes on a heap. Every access is checked:
a null or deleted pointer, an index behind the end of a vector, and a loop that does not
end are faults. `K` is ordered by its `<` and compared by its `==`.
-/

namespace SkUtils.Containers.SkipListOperations

open SkUtils.Library.CheckedLoop
open SkUtils.Library.LinkedChain

abbrev Addr :=
  Nat

structure SkipListNode (K V : Type) where
  key : K
  val : V
  level : Nat
  nextNodes : List (Option Addr)

def SkipListNode.ofLevel {K V : Type} (level : Nat) (k : K) (v : V) : SkipListNode K V where
  key := k
  val := v
  level := level
  nextNodes := List.replicate level none

inductive Fault
  | badAddress
  | outOfBounds
  | noProgress
deriving DecidableEq

abbrev Heap (K V : Type) :=
  Addr → Option (SkipListNode K V)

def max_level : Nat :=
  20

/-- `new` hands out the addresses in order, `top` is the next one. `node_num` is an `int` of the
source, which holds the number of nodes of a list of fewer than 2^31. -/
structure SkipList (K V : Type) where
  node_num : Int
  head : Addr
  heap : Heap K V
  top : Addr

section Access

variable {K V : Type}

def node (heap : Heap K V) (a : Addr) : Except Fault (SkipListNode K V) :=
  match heap a with
  | some n => return n
  | none => throw .badAddress

/-- `a->nextNodes[i]`. -/
def nextNode (heap : Heap K V) (a : Addr) (i : Nat) : Except Fault (Option Addr) := do
  let n ← node heap a
  match n.nextNodes[i]? with
  | some next => return next
  | none => throw .outOfBounds

def setNextNode (heap : Heap K V) (a : Addr) (i : Nat) (next : Option Addr) :
    Except Fault (Heap K V) := do
  let n ← node heap a
  if i < n.nextNodes.length then
    return Function.update heap a (some { n with nextNodes := n.nextNodes.set i next })
  else
    throw .outOfBounds

/-- `update[i]`, about to be dereferenced. -/
def updateAt (update : List (Option Addr)) (i : Nat) : Except Fault Addr :=
  match update[i]? with
  | some (some a) => return a
  | some none => throw .badAddress
  | none => throw .outOfBounds

end Access

section Operations

variable {K V : Type} [LinearOrder K]

def empty [Inhabited K] [Inhabited V] : SkipList K V where
  node_num := 0
  head := 0
  heap := Function.update (fun _ => none) 0 (some (.ofLevel max_level default default))
  top := 1

/-- The loop of `get_random_level`; its test at `level` takes the draw `level - 1`. -/
def get_random_level.loop (draws : Nat → Rat) (level : Nat) : Nat :=
  if draws (level - 1) < 1 / 2 ∧ level ≤ max_level then
    get_random_level.loop draws (level + 1)
  else
    level
termination_by max_level + 1 - level

def get_random_level (draws : Nat → Rat) : Nat :=
  get_random_level.loop draws 1

/-- The inner `while` at level `i`, cut off after `fuel` tests. -/
def advance (heap : Heap K V) (key : K) (i : Nat) : Nat → Addr → Except Fault Addr
  | 0, _ => throw .noProgress
  | fuel + 1, curr => do
      match ← nextNode heap curr i with
      | none => return curr
      | some next =>
          let n ← node heap next
          if n.key < key then
            advance heap key i fuel next
          else
            return curr

namespace SkipList

variable (s : SkipList K V)

def search (key : K) :
    Nat → Addr → List (Option Addr) → Except Fault (Addr × List (Option Addr))
  | 0, curr, update => return (curr, update)
  | i + 1, curr, update => do
      let curr ← advance s.heap key i (s.node_num.toNat + 1) curr
      search key i curr (update.set i (some curr))

/-- The common start of `find`, `insert` and `erase`: `update`, and the node of `key`. -/
def locate (key : K) : Except Fault (List (Option Addr) × Option Addr) := do
  let (curr, update) ← s.search key max_level s.head (List.replicate max_level none)
  match ← nextNode s.heap curr 0 with
  | none => return (update, none)
  | some curr =>
      let n ← node s.heap curr
      return (update, if n.key = key then some curr else none)

def find (key : K) : Except Fault (Option Addr) := do
  let (_, curr) ← s.locate key
  return curr

/-- `operator[]`, read through the reference it returns. -/
def get (key : K) : Except Fault (Except String V) := do
  match ← s.find key with
  | none => return throw "Unexists Key"
  | some r =>
      let n ← node s.heap r
      return return n.val

def splice (update : List (Option Addr)) (newNode : Addr) (heap : Heap K V) (i : Nat) :
    Except Fault (Heap K V) := do
  let p ← updateAt update i
  let heap ← setNextNode heap newNode i (← nextNode heap p i)
  setNextNode heap p i (some newNode)

/-- `insert`, where `level` is what `get_random_level` returns. -/
def insertAt (key : K) (val : V) (level : Nat) : Except Fault (SkipList K V × Bool) := do
  match ← s.locate key with
  | (_, some _) => return (s, false)
  | (update, none) =>
      let newNode := s.top
      let heap := Function.update s.heap newNode (some (.ofLevel level key val))
      let heap ← (List.range level).foldlM (splice update newNode) heap
      return ({ s with heap, top := s.top + 1, node_num := s.node_num + 1 }, true)

def insert (key : K) (val : V) (draws : Nat → Rat) : Except Fault (SkipList K V × Bool) :=
  s.insertAt key val (get_random_level draws)

def detach (update : List (Option Addr)) (curr : Addr) (heap : Heap K V) (i : Nat) :
    Except Fault (Heap K V) := do
  let p ← updateAt update i
  let heap ← setNextNode heap p i (← nextNode heap curr i)
  setNextNode heap curr i none

def erase (key : K) : Except Fault (SkipList K V × Bool) := do
  if s.node_num ≤ 0 then
    return (s, false)
  else
    match ← s.locate key with
    | (_, none) => return (s, false)
    | (update, some curr) =>
        let n ← node s.heap curr
        let heap ← (List.range n.level).foldlM (detach update curr) s.heap
        let heap := Function.update heap curr none
        return ({ s with heap, node_num := s.node_num - 1 }, true)

end SkipList

end Operations

section Calls

variable {K V : Type} [LinearOrder K]

abbrev Level :=
  { level : Nat // 1 ≤ level ∧ level ≤ max_level }

inductive Call (K V : Type)
  | insert (key : K) (val : V)
  | erase (key : K)
  | find (key : K)
  | get (key : K)
  | size

/-- What a caller sees; the node that `find` returns is read. -/
inductive Result (K V : Type)
  | done (result : Bool)
  | found (contents : Option (K × V))
  | value (val : Except String V)
  | size (count : Int)

/-- One call; a successful `insert` draws `level`. -/
def perform (s : SkipList K V) (level : Level) :
    Call K V → Except Fault (SkipList K V × Result K V)
  | .insert key val => do
      let (s, result) ← s.insertAt key val level.val
      return (s, .done result)
  | .erase key => do
      let (s, result) ← s.erase key
      return (s, .done result)
  | .find key => do
      match ← s.find key with
      | none => return (s, .found none)
      | some r =>
          let n ← node s.heap r
          return (s, .found (some (n.key, n.val)))
  | .get key => do
      return (s, .value (← s.get key))
  | .size => return (s, .size s.node_num)

def run (s : SkipList K V) :
    List (Call K V × Level) → Except Fault (SkipList K V × List (Result K V))
  | [] => return (s, [])
  | (call, level) :: calls => do
      let (s, result) ← perform s level call
      let (s, results) ← run s calls
      return (s, result :: results)

end Calls

section Memory

variable {K V : Type} {heap : Heap K V}

structure Tower (K V : Type) where
  key : K
  val : V
  level : Nat
  slots : Nat

def tower (heap : Heap K V) (a : Addr) : Option (Tower K V) :=
  (heap a).map fun n => ⟨n.key, n.val, n.level, n.nextNodes.length⟩

def HasSlot (heap : Heap K V) (a : Addr) (i : Nat) : Prop :=
  ∃ t, tower heap a = some t ∧ i < t.slots

def succ (heap : Heap K V) (i : Nat) : Addr → Option Addr :=
  fun a => ((heap a).bind fun n => n.nextNodes[i]?).join

theorem node_eq_ok {a : Addr} {n : SkipListNode K V} (h : heap a = some n) :
    node heap a = .ok n := by
  rw [node, h]
  rfl

theorem node_of_tower {a : Addr} {t : Tower K V} (h : tower heap a = some t) :
    ∃ n, node heap a = .ok n ∧ n.key = t.key ∧ n.val = t.val ∧ n.level = t.level := by
  obtain ⟨n, hn, rfl⟩ := Option.map_eq_some_iff.mp h
  exact ⟨n, node_eq_ok hn, rfl, rfl, rfl⟩

theorem HasSlot.exists_node {a : Addr} {i : Nat} (h : HasSlot heap a i) :
    ∃ n, heap a = some n ∧ i < n.nextNodes.length := by
  obtain ⟨t, ht, hi⟩ := h
  obtain ⟨n, hn, rfl⟩ := Option.map_eq_some_iff.mp ht
  exact ⟨n, hn, hi⟩

theorem HasSlot.congr {heap' : Heap K V} {a : Addr} {i : Nat} (h : HasSlot heap a i)
    (htower : tower heap' = tower heap) : HasSlot heap' a i := by
  obtain ⟨t, ht, hi⟩ := h
  exact ⟨t, htower ▸ ht, hi⟩

theorem nextNode_eq_ok {a : Addr} {i : Nat} (h : HasSlot heap a i) :
    nextNode heap a i = .ok (succ heap i a) := by
  obtain ⟨n, hn, hi⟩ := h.exists_node
  rw [nextNode, node_eq_ok hn]
  simp [succ, hn, hi]

structure Rewires (i : Nat) (rewire : (Addr → Option Addr) → Addr → Option Addr)
    (heap heap' : Heap K V) : Prop where
  tower : tower heap' = tower heap
  succ : succ heap' i = rewire (succ heap i)
  frame : ∀ j, j ≠ i → SkipListOperations.succ heap' j = SkipListOperations.succ heap j

theorem setNextNode_eq_ok {a : Addr} {i : Nat} (h : HasSlot heap a i)
    (next : Option Addr) :
    ∃ heap', setNextNode heap a i next = .ok heap' ∧
      Rewires i (fun f => Function.update f a next) heap heap' := by
  obtain ⟨n, hn, hi⟩ := h.exists_node
  refine ⟨Function.update heap a (some { n with nextNodes := n.nextNodes.set i next }),
    ?_, ⟨?_, ?_, ?_⟩⟩
  · rw [setNextNode, node_eq_ok hn]
    simp [hi]
  · funext b
    rcases eq_or_ne b a with rfl | hb
    · simp [tower, hn]
    · simp [tower, hb]
  · funext b
    rcases eq_or_ne b a with rfl | hb
    · simp [succ, hi]
    · simp [succ, hb]
  · intro j hj
    funext b
    rcases eq_or_ne b a with rfl | hb
    · simp [succ, hn, Ne.symm hj]
    · simp [succ, hb]

theorem updateAt_eq_ok {update : List (Option Addr)} {i : Nat} {p : Addr}
    (h : update[i]? = some (some p)) : updateAt update i = .ok p := by
  rw [updateAt, h]
  rfl

theorem splice_eq_ok {update : List (Option Addr)} {i : Nat} {p newNode : Addr}
    (hupdate : update[i]? = some (some p)) (hp : HasSlot heap p i)
    (hn : HasSlot heap newNode i) :
    ∃ heap', SkipList.splice update newNode heap i = .ok heap' ∧
      Rewires i (fun f => link f p newNode) heap heap' := by
  obtain ⟨heap₁, hset, h₁⟩ := setNextNode_eq_ok hn (succ heap i p)
  obtain ⟨heap₂, hset', h₂⟩ := setNextNode_eq_ok (hp.congr h₁.tower) (some newNode)
  refine ⟨heap₂, ?_, ?_⟩
  · rw [SkipList.splice, updateAt_eq_ok hupdate, ok_bind, nextNode_eq_ok hp, ok_bind, hset,
      ok_bind, hset']
  · refine ⟨h₂.tower.trans h₁.tower, ?_, fun j hj => (h₂.frame j hj).trans (h₁.frame j hj)⟩
    rw [h₂.succ, h₁.succ]
    rfl

theorem detach_eq_ok {update : List (Option Addr)} {i : Nat} {p curr : Addr}
    (hupdate : update[i]? = some (some p)) (hp : HasSlot heap p i)
    (hc : HasSlot heap curr i) :
    ∃ heap', SkipList.detach update curr heap i = .ok heap' ∧
      Rewires i (fun f => unlink f p curr) heap heap' := by
  obtain ⟨heap₁, hset, h₁⟩ := setNextNode_eq_ok hp (succ heap i curr)
  obtain ⟨heap₂, hset', h₂⟩ := setNextNode_eq_ok (hc.congr h₁.tower) none
  refine ⟨heap₂, ?_, ?_⟩
  · rw [SkipList.detach, updateAt_eq_ok hupdate, ok_bind, nextNode_eq_ok hc, ok_bind, hset,
      ok_bind, hset']
  · refine ⟨h₂.tower.trans h₁.tower, ?_, fun j hj => (h₂.frame j hj).trans (h₁.frame j hj)⟩
    rw [h₂.succ, h₁.succ]
    rfl

/-- A loop over the levels below `m` whose round at `i` rewires level `i`. -/
theorem rewire_levels {body : Heap K V → Nat → Except Fault (Heap K V)}
    {rewire : Nat → (Addr → Option Addr) → Addr → Option Addr} {m : Nat}
    (hbody : ∀ i, i < m → ∀ h, tower h = tower heap →
      ∃ h', body h i = .ok h' ∧ Rewires i (rewire i) h h') :
    ∃ heap', (List.range m).foldlM body heap = .ok heap' ∧ tower heap' = tower heap ∧
      (∀ i, i < m → succ heap' i = rewire i (succ heap i)) ∧
      ∀ i, m ≤ i → succ heap' i = succ heap i := by
  refine foldlM_range_ok (fun m heap' => tower heap' = tower heap ∧
    (∀ i, i < m → succ heap' i = rewire i (succ heap i)) ∧
    ∀ i, m ≤ i → succ heap' i = succ heap i) ?_ ?_
  · exact ⟨rfl, fun i hi => absurd hi (Nat.not_lt_zero i), fun i _ => rfl⟩
  · rintro i hi h ⟨htower, hdone, hrest⟩
    obtain ⟨h', hround, hrewire⟩ := hbody i hi h htower
    refine ⟨h', hround, hrewire.tower.trans htower, ?_, ?_⟩
    · intro j hj
      rcases Nat.lt_succ_iff_lt_or_eq.mp hj with hlt | rfl
      · rw [hrewire.frame j (by omega), hdone j hlt]
      · rw [hrewire.succ, hrest j (le_refl j)]
    · intro j hj
      rw [hrewire.frame j (by omega), hrest j (by omega)]

end Memory

end SkUtils.Containers.SkipListOperations
