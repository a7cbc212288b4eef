import Mathlib.Data.List.Basic
import Mathlib.Data.Tree.Basic

/-!
The traversals of a binary tree. When its values are distinct, the first one of the
preorder traversal is found at one place in the inorder traversal, where the two subtrees
part.
-/

namespace SkUtils.Library.Traversals

variable {α : Type*}

def preorder : BinaryTree α → List α
  | .nil => []
  | .node a l r => a :: (preorder l ++ preorder r)

def inorder : BinaryTree α → List α
  | .nil => []
  | .node a l r => inorder l ++ a :: inorder r

theorem length_preorder (t : BinaryTree α) : (preorder t).length = t.numNodes := by
  induction t with
  | nil => rfl
  | node a l r ihl ihr =>
      rw [preorder, List.length_cons, List.length_append, ihl, ihr]
      rfl

theorem length_inorder (t : BinaryTree α) : (inorder t).length = t.numNodes := by
  induction t with
  | nil => rfl
  | node a l r ihl ihr =>
      rw [inorder, List.length_append, List.length_cons, ihl, ihr]
      rfl

/-- The two traversals are permutations of each other. -/
theorem inorder_perm_preorder (t : BinaryTree α) : (inorder t).Perm (preorder t) := by
  induction t with
  | nil => exact .nil
  | node a l r ihl ihr =>
      rw [inorder, preorder]
      exact List.perm_middle.trans ((ihl.append ihr).cons a)

theorem preorder_ne_nil {t : BinaryTree α} (h : t ≠ .nil) : preorder t ≠ [] := by
  cases t with
  | nil => exact absurd rfl h
  | node a l r => exact List.cons_ne_nil _ _

theorem inorder_ne_nil {t : BinaryTree α} (h : t ≠ .nil) : inorder t ≠ [] := by
  intro hnil
  have hperm := inorder_perm_preorder t
  rw [hnil] at hperm
  exact preorder_ne_nil h hperm.nil_eq.symm

/-- Preorder and inorder determine a tree whose values are distinct. -/
theorem eq_of_traversals {t t' : BinaryTree α} (hdistinct : (preorder t).Nodup)
    (hpre : preorder t = preorder t') (hin : inorder t = inorder t') : t = t' := by
  induction t generalizing t' with
  | nil =>
      cases t' with
      | nil => rfl
      | node a' l' r' => exact absurd hpre (List.cons_ne_nil _ _).symm
  | node a l r ihl ihr =>
      cases t' with
      | nil => exact absurd hpre (List.cons_ne_nil _ _)
      | node a' l' r' =>
          obtain ⟨rfl, hrest⟩ := List.cons.inj hpre
          obtain ⟨hroot, hsubtrees⟩ := List.nodup_cons.mp hdistinct
          rw [List.mem_append, not_or] at hroot
          obtain ⟨hinl, -, hinr⟩ := (List.append_cons_inj_of_notMem
            (mt (inorder_perm_preorder l).mem_iff.mp hroot.1)
            (mt (inorder_perm_preorder r).mem_iff.mp hroot.2)).mp hin
          have hlength : (preorder l).length = (preorder l').length := by
            rw [length_preorder, ← length_inorder, hinl, length_inorder, length_preorder]
          obtain ⟨hprel, hprer⟩ := List.append_inj hrest hlength
          obtain ⟨hl, hr, -⟩ := List.nodup_append.mp hsubtrees
          rw [ihl hl hprel hinl, ihr hr hprer hinr]

end SkUtils.Library.Traversals
