import Mathlib.Data.Fin.Basic
import SkUtils.Library.ParentForest

/-!
`UnionFindSet<int>` of `unionfind_set.h`. The elements and the entries of `parent`
are the indices `0..n-1`; a recursion that does not end is `none`.
-/

namespace SkUtils.Containers.UnionFindSetInt

open SkUtils.Library.ParentForest

structure UnionFindSet (n : Nat) where
  cnt : Int
  parent : Vector (Fin n) n

variable {n : Nat}

def ofSize (n : Nat) : UnionFindSet n where
  cnt := n
  parent := Vector.ofFn id

def parentFn (parent : Vector (Fin n) n) : Fin n → Fin n :=
  fun i => parent[i]

/-- The recursion of `find`, cut off at a depth of `fuel` calls. -/
def findFrom : Nat → Vector (Fin n) n → Fin n → Option (Vector (Fin n) n × Fin n)
  | 0, _, _ => none
  | fuel + 1, parent, a =>
      if parent[a] ≠ a then do
        let (parent, root) ← findFrom fuel parent parent[a]
        let parent := parent.set a root
        return (parent, parent[a])
      else
        return (parent, parent[a])

namespace UnionFindSet

def find (s : UnionFindSet n) (a : Fin n) : Option (UnionFindSet n × Fin n) := do
  let (parent, root) ← findFrom n s.parent a
  return ({ s with parent }, root)

def connect (s : UnionFindSet n) (a b : Fin n) : Option (UnionFindSet n) := do
  let (s, ra) ← s.find a
  let (s, rb) ← s.find b
  if ra ≠ rb then
    return { parent := s.parent.set rb ra, cnt := s.cnt - 1 }
  else
    return s

def normalizeAt (s : UnionFindSet n) (i : Fin n) : Option (UnionFindSet n) := do
  if s.parent[i] ≠ i then
    let (s, root) ← s.find s.parent[i]
    return { s with parent := s.parent.set i root }
  else
    return s

def normalize (s : UnionFindSet n) : Option (UnionFindSet n) :=
  (List.finRange n).foldlM normalizeAt s

def isConnected (s : UnionFindSet n) (a b : Fin n) : Option (UnionFindSet n × Bool) := do
  let (s, ra) ← s.find a
  let (s, rb) ← s.find b
  return (s, ra = rb)

end UnionFindSet

inductive Operation (n : Nat)
  | connect (a b : Fin n)
  | find (a : Fin n)
  | isConnected (a b : Fin n)
  | normalize
deriving DecidableEq

def apply (s : UnionFindSet n) : Operation n → Option (UnionFindSet n)
  | .connect a b => s.connect a b
  | .find a => (s.find a).map Prod.fst
  | .isConnected a b => (s.isConnected a b).map Prod.fst
  | .normalize => s.normalize

def run (ops : List (Operation n)) : Option (UnionFindSet n) :=
  ops.foldlM apply (ofSize n)

section Find

theorem parentFn_set (parent : Vector (Fin n) n) (i r : Fin n) :
    parentFn (parent.set i r) = Function.update (parentFn parent) i r := by
  funext k
  rcases eq_or_ne k i with rfl | hki
  · simp [parentFn]
  · rw [Function.update_of_ne hki]
    have hne : i.val ≠ k.val := fun h => hki (Fin.ext h.symm)
    simp [parentFn, hne]

theorem compresses_set {parent : Vector (Fin n) n} (hp : Forest (parentFn parent))
    {a r : Fin n} (hr : RootOf (parentFn parent) a r) :
    Compresses (parentFn parent) (parentFn (parent.set a r)) := by
  rw [parentFn_set]
  exact compresses_update hp hr

/-- A fuel beyond the depth of `a` is enough for `find` to return its root. -/
theorem findFrom_spec {fuel depth : Nat} {parent : Vector (Fin n) n} {a r : Fin n}
    (hp : Forest (parentFn parent)) (hr : RootOf (parentFn parent) a r)
    (hdepth : (parentFn parent)^[depth] a = r) (hfuel : depth < fuel) :
    ∃ parent', findFrom fuel parent a = some (parent', r) ∧
      Compresses (parentFn parent) (parentFn parent') := by
  induction fuel generalizing a depth with
  | zero => omega
  | succ fuel ih =>
      rcases eq_or_ne parent[a] a with ha | ha
      · have hra : r = a := IsRoot.eq_of_rootOf (p := parentFn parent) ha hr
        refine ⟨parent, ?_, .refl _⟩
        rw [findFrom, if_neg (not_not.mpr ha), ha, hra]
        rfl
      · cases depth with
        | zero =>
            have hra : a = r := hdepth
            exact absurd (hra ▸ hr.isRoot) ha
        | succ depth =>
            obtain ⟨parent', hfind, hcompress⟩ := ih hr.parent hdepth (by omega)
            have hfind' : findFrom fuel parent parent[a] = some (parent', r) := hfind
            refine ⟨parent'.set a r, ?_, ?_⟩
            · rw [findFrom, if_pos ha, hfind']
              simp
            · exact hcompress.trans
                (compresses_set (hcompress.forest hp) ((hcompress.rootOf_iff a r).mpr hr))

end Find

section Operations

/-- The same roots and the same count, with shorter paths. -/
structure Compressed (s s' : UnionFindSet n) : Prop where
  parent : Compresses (parentFn s.parent) (parentFn s'.parent)
  cnt : s'.cnt = s.cnt

theorem Compressed.refl (s : UnionFindSet n) : Compressed s s :=
  ⟨.refl _, rfl⟩

theorem Compressed.trans {s s' s'' : UnionFindSet n} (h : Compressed s s')
    (h' : Compressed s' s'') : Compressed s s'' :=
  ⟨h.parent.trans h'.parent, h'.cnt.trans h.cnt⟩

theorem find_spec {s : UnionFindSet n} {a r : Fin n} (hp : Forest (parentFn s.parent))
    (hr : RootOf (parentFn s.parent) a r) :
    ∃ s', s.find a = some (s', r) ∧ Compressed s s' := by
  obtain ⟨depth, hlt, hdepth⟩ := hr.depth_lt_card
  rw [Fintype.card_fin] at hlt
  obtain ⟨parent', hfind, hcompress⟩ := findFrom_spec hp hr hdepth hlt
  exact ⟨{ s with parent := parent' }, by simp [UnionFindSet.find, hfind], hcompress, rfl⟩

theorem normalizeAt_spec {s : UnionFindSet n} (hp : Forest (parentFn s.parent))
    (i : Fin n) :
    ∃ s', s.normalizeAt i = some s' ∧ Compressed s s' ∧
      IsRoot (parentFn s'.parent) (parentFn s'.parent i) := by
  rcases eq_or_ne s.parent[i] i with hi | hi
  · refine ⟨s, ?_, .refl s, ?_⟩
    · rw [UnionFindSet.normalizeAt, if_neg (not_not.mpr hi)]
      rfl
    · have hi' : parentFn s.parent i = i := hi
      rw [hi']
      exact hi'
  · obtain ⟨r, hr⟩ := hp i
    obtain ⟨s', hfind, hcompress⟩ := find_spec hp hr.parent
    have hfind' : s.find s.parent[i] = some (s', r) := hfind
    have hset := compresses_set (hcompress.parent.forest hp)
      ((hcompress.parent.rootOf_iff i r).mpr hr)
    refine ⟨{ s' with parent := s'.parent.set i r }, ?_, ?_, ?_⟩
    · rw [UnionFindSet.normalizeAt, if_pos hi, hfind']
      rfl
    · exact hcompress.trans ⟨hset, rfl⟩
    · rw [parentFn_set, Function.update_self, ← parentFn_set]
      exact hset.isRoot_iff.mpr (hcompress.parent.isRoot_iff.mpr hr.isRoot)

theorem normalizeAt_foldlM {s : UnionFindSet n} (hp : Forest (parentFn s.parent))
    (is : List (Fin n)) :
    ∃ s', is.foldlM UnionFindSet.normalizeAt s = some s' ∧ Compressed s s' ∧
      ∀ i ∈ is, IsRoot (parentFn s'.parent) (parentFn s'.parent i) := by
  induction is generalizing s with
  | nil => exact ⟨s, rfl, .refl s, by simp⟩
  | cons i is ih =>
      obtain ⟨s₁, hround, hcompress, hroot⟩ := normalizeAt_spec hp i
      obtain ⟨s₂, hrest, hcompress', hroots⟩ := ih (hcompress.parent.forest hp)
      refine ⟨s₂, by simp [hround, hrest], hcompress.trans hcompress', ?_⟩
      intro j hj
      rcases List.mem_cons.mp hj with rfl | hj
      · exact hcompress'.parent.isRoot_parent hroot
      · exact hroots j hj

theorem normalize_spec {s : UnionFindSet n} (hp : Forest (parentFn s.parent)) :
    ∃ s', s.normalize = some s' ∧ Compressed s s' ∧
      ∀ i, IsRoot (parentFn s'.parent) (parentFn s'.parent i) := by
  obtain ⟨s', hrun, hcompress, hroots⟩ := normalizeAt_foldlM hp (List.finRange n)
  exact ⟨s', hrun, hcompress, fun i => hroots i (List.mem_finRange i)⟩

end Operations

end SkUtils.Containers.UnionFindSetInt
