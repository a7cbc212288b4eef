import SkUtils.Library.PriorityQueues

/-!
`topk_queue` and `topbottomk_queue` of `topk_queue.h` over a `std::priority_queue`. A
read of the top of an empty queue is `none`. Each call holds the spin lock of its queue.
-/

namespace SkUtils.Containers.TopkQueues

open SkUtils.Library.StrictWeakOrder
open SkUtils.Library.PriorityQueues

universe u

variable {T : Type u}

def reversed_type (comp : T → T → Bool) (a b : T) : Bool :=
  !comp a b && !(!comp a b && !comp b a)

variable {comp : T → T → Bool}

/-- `topk_queue<T, Comp>`; `pq` is ordered by the reversed comparator. -/
structure TopkQueue (std : PriorityQueue T (reversed_type comp)) where
  cap : Nat
  pq : std.Queue

namespace TopkQueue

variable {std : PriorityQueue T (reversed_type comp)}

def ofCapacity (std : PriorityQueue T (reversed_type comp)) (capacity : Nat) :
    TopkQueue std where
  cap := capacity
  pq := std.empty

def push (q : TopkQueue std) (val : T) : Option (TopkQueue std) := do
  if std.size q.pq < q.cap then
    return { q with pq := std.push q.pq val }
  else
    let top ← std.top q.pq
    if reversed_type comp val top then
      return { q with pq := std.pop (std.push q.pq val) }
    else
      return q

/-- The loop of `pop`, cut off after `fuel` rounds. -/
def drain (std : PriorityQueue T (reversed_type comp)) :
    Nat → std.Queue → List T → Option (List T × std.Queue)
  | fuel, pq, ret =>
      if std.size pq = 0 then
        some (ret, pq)
      else
        match fuel with
        | 0 => none
        | fuel + 1 => do
            let top ← std.top pq
            drain std fuel (std.pop pq) (ret ++ [top])

def pop (q : TopkQueue std) : Option (List T × TopkQueue std) := do
  let (ret, pq) ← drain std (std.size q.pq) q.pq []
  return (ret.reverse, { q with pq })

end TopkQueue

structure TopbottomkQueue (maxStd : PriorityQueue T (reversed_type comp))
    (minStd : PriorityQueue T (reversed_type (reversed_type comp))) where
  max_queue : TopkQueue maxStd
  min_queue : TopkQueue minStd

namespace TopbottomkQueue

variable {maxStd : PriorityQueue T (reversed_type comp)}
  {minStd : PriorityQueue T (reversed_type (reversed_type comp))}

def ofCapacity (maxStd : PriorityQueue T (reversed_type comp))
    (minStd : PriorityQueue T (reversed_type (reversed_type comp))) (capacity : Nat) :
    TopbottomkQueue maxStd minStd where
  max_queue := .ofCapacity maxStd capacity
  min_queue := .ofCapacity minStd capacity

def push (q : TopbottomkQueue maxStd minStd) (val : T) :
    Option (TopbottomkQueue maxStd minStd) := do
  let max_queue ← q.max_queue.push val
  let min_queue ← q.min_queue.push val
  return { max_queue, min_queue }

def pop_top (q : TopbottomkQueue maxStd minStd) :
    Option (List T × TopbottomkQueue maxStd minStd) := do
  let (ret, max_queue) ← q.max_queue.pop
  return (ret, { q with max_queue })

def pop_bottom (q : TopbottomkQueue maxStd minStd) :
    Option (List T × TopbottomkQueue maxStd minStd) := do
  let (ret, min_queue) ← q.min_queue.pop
  return (ret, { q with min_queue })

end TopbottomkQueue

section Reversal

theorem reversed_type_eq (hasymm : ∀ a b, comp a b → ¬ comp b a) (a b : T) :
    reversed_type comp a b = comp b a := by
  unfold reversed_type
  cases hab : comp a b with
  | true =>
      have hba := hasymm a b hab
      simp [hba]
  | false => simp

theorem reversed_type_iff [IsStrictWeakOrder T (RelOf comp)] (a b : T) :
    reversed_type comp a b ↔ comp b a := by
  rw [reversed_type_eq fun a b => asymm_of (RelOf comp)]

instance [IsStrictWeakOrder T (RelOf comp)] :
    IsStrictWeakOrder T (RelOf (reversed_type comp)) where
  irrefl := by
    intro a
    rw [RelOf, reversed_type_iff]
    exact irrefl_of (RelOf comp) a
  trans := by
    intro a b c hab hbc
    rw [RelOf, reversed_type_iff] at hab hbc ⊢
    exact trans_of (RelOf comp) hbc hab
  incomp_trans := by
    intro a b c hab hbc
    simp only [RelOf, reversed_type_iff] at hab hbc ⊢
    exact incomp_trans_of (RelOf comp) hbc hab

end Reversal

section Calls

variable {std : PriorityQueue T (reversed_type comp)}

inductive Call (T : Type u)
  | push (val : T)
  | pop

namespace TopkQueue

def apply (q : TopkQueue std) : Call T → Option (TopkQueue std)
  | .push val => q.push val
  | .pop => q.pop.map Prod.snd

def run (q : TopkQueue std) (calls : List (Call T)) : Option (TopkQueue std) :=
  calls.foldlM apply q

end TopkQueue

/-- The values pushed since the last `pop`, when `vs` were pushed before. -/
def pushedFrom (vs : List T) : List (Call T) → List T
  | [] => vs
  | .push val :: calls => pushedFrom (vs ++ [val]) calls
  | .pop :: calls => pushedFrom [] calls

inductive TopbottomCall (T : Type u)
  | push (val : T)
  | pop_top
  | pop_bottom

variable {maxStd : PriorityQueue T (reversed_type comp)}
  {minStd : PriorityQueue T (reversed_type (reversed_type comp))}

namespace TopbottomkQueue

def apply (q : TopbottomkQueue maxStd minStd) :
    TopbottomCall T → Option (TopbottomkQueue maxStd minStd)
  | .push val => q.push val
  | .pop_top => q.pop_top.map Prod.snd
  | .pop_bottom => q.pop_bottom.map Prod.snd

def run (q : TopbottomkQueue maxStd minStd) (calls : List (TopbottomCall T)) :
    Option (TopbottomkQueue maxStd minStd) :=
  calls.foldlM apply q

end TopbottomkQueue

def topCalls : List (TopbottomCall T) → List (Call T)
  | [] => []
  | .push val :: calls => .push val :: topCalls calls
  | .pop_top :: calls => .pop :: topCalls calls
  | .pop_bottom :: calls => topCalls calls

def bottomCalls : List (TopbottomCall T) → List (Call T)
  | [] => []
  | .push val :: calls => .push val :: bottomCalls calls
  | .pop_top :: calls => bottomCalls calls
  | .pop_bottom :: calls => .pop :: bottomCalls calls

end Calls

end SkUtils.Containers.TopkQueues
