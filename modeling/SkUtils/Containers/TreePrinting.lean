import SkUtils.Library.Traversals
import SkUtils.Strings.Printer

/-!
`treeToString` of `lc.h`. A separator follows every value of a traversal, and the last one
is cut off.
-/

namespace SkUtils.Containers.TreePrinting

open SkUtils.Library.Traversals
open SkUtils.Library.UniqueReadability
open SkUtils.Strings.Printer (ELEM_SEP EndsNumber decimal readable_decimal toString_head)
open SkUtils.Strings.StringUtils (Str)

/-- A `TreeNode*`; `nil` is the null pointer. -/
abbrev TreeNode :=
  BinaryTree Int

/-- `ss` after `inorder(node)`. -/
def writeInorder (sep : Str) : Str → TreeNode → Str
  | ss, .nil => ss
  | ss, .node val left right =>
      let ss := writeInorder sep ss left
      let ss := ss ++ decimal val ++ sep
      writeInorder sep ss right

/-- `ss2` after `preorder(node)`. -/
def writePreorder (sep : Str) : Str → TreeNode → Str
  | ss, .nil => ss
  | ss, .node val left right =>
      let ss := ss ++ decimal val ++ sep
      let ss := writePreorder sep ss left
      writePreorder sep ss right

def treeToString (root : TreeNode) (sep : Str) : Str :=
  let ss := writeInorder sep "(In)[".toList root
  let ret := ss.take (ss.length - sep.length) ++ [']']
  let ss2 := writePreorder sep "(Pre)[".toList root
  let ret2 := ss2.take (ss2.length - sep.length) ++ [']']
  ret2 ++ sep ++ ret

def toString (root : TreeNode) : Str :=
  treeToString root ELEM_SEP

section Text

variable {sep ss : Str}

theorem writeInorder_eq (sep ss : Str) (t : TreeNode) :
    writeInorder sep ss t = ss ++ ((inorder t).map decimal).flatMap fun word => word ++ sep := by
  induction t generalizing ss with
  | nil => simp [writeInorder, inorder]
  | node val left right ihl ihr =>
      rw [writeInorder, ihl, ihr]
      simp [inorder]

theorem writePreorder_eq (sep ss : Str) (t : TreeNode) :
    writePreorder sep ss t = ss ++ ((preorder t).map decimal).flatMap fun word => word ++ sep := by
  induction t generalizing ss with
  | nil => simp [writePreorder, preorder]
  | node val left right ihl ihr =>
      rw [writePreorder, ihl, ihr]
      simp [preorder]

/-- Cutting off the last separator and closing the bracket leaves a listing. -/
theorem cut_separator (sep ss : Str) {words : List Str} (hne : words ≠ []) :
    (ss ++ words.flatMap fun word => word ++ sep).take
        ((ss ++ words.flatMap fun word => word ++ sep).length - sep.length) ++ [']'] =
      ss ++ listing sep [']'] words := by
  have hlisting : (ss ++ words.flatMap fun word => word ++ sep) =
      ss ++ listing sep [] words ++ sep := by
    rw [← listing_eq_flatMap hne, List.append_assoc, listing_append, List.nil_append]
  rw [hlisting, List.length_append, Nat.add_sub_cancel, List.take_left' rfl, List.append_assoc,
    listing_append, List.nil_append]

theorem toString_eq {t : TreeNode} (hne : t ≠ .nil) :
    toString t = "(Pre)[".toList ++ (listing ELEM_SEP [']'] ((preorder t).map decimal) ++
      (ELEM_SEP ++ ("(In)[".toList ++ listing ELEM_SEP [']'] ((inorder t).map decimal)))) := by
  have hpre : (preorder t).map decimal ≠ [] := by simpa using preorder_ne_nil hne
  have hin : (inorder t).map decimal ≠ [] := by simpa using inorder_ne_nil hne
  simp only [toString, treeToString, writeInorder_eq, writePreorder_eq,
    cut_separator _ _ hpre, cut_separator _ _ hin, List.append_assoc]

end Text

/-- A number is read off the front of a listing, and the listing off the front of a text. -/
theorem listing_injective {xs ys : List Int} {r s : Str}
    (h : listing ELEM_SEP [']'] (xs.map decimal) ++ r =
      listing ELEM_SEP [']'] (ys.map decimal) ++ s) : xs = ys ∧ r = s := by
  have hhead : ∀ n, ∃ c word, decimal n = c :: word ∧ c ≠ ']' := toString_head .int
  have hsep : EndsNumber ',' := by
    rw [EndsNumber]
    decide
  have hclosing : EndsNumber ']' := by
    rw [EndsNumber]
    decide
  exact readable_decimal.listing hsep hclosing (by decide) hhead h

theorem toString_identifies {t1 t2 : TreeNode} (hne1 : t1 ≠ .nil) (hne2 : t2 ≠ .nil)
    (hdistinct : (preorder t1).Nodup) (h : toString t1 = toString t2) : t1 = t2 := by
  rw [toString_eq hne1, toString_eq hne2] at h
  obtain ⟨hpre, hrest⟩ := listing_injective (List.append_cancel_left h)
  have hin := List.append_cancel_left (List.append_cancel_left hrest)
  obtain ⟨hin, -⟩ := listing_injective (congrArg (· ++ []) hin)
  exact eq_of_traversals hdistinct hpre hin

theorem toString_identifies_shifted :
    (BinaryTree.node 0 (.node 1 .nil .nil) .nil).map (· + 1) =
      (.node 1 (.node 2 .nil .nil) .nil : TreeNode) :=
  toString_identifies (by simp [BinaryTree.map]) (by simp) (by decide) rfl

end SkUtils.Containers.TreePrinting
