import SkUtils.Library.ParentForest

/-!
The trees of a forest of parents, listed from the top. The elements below `a` are found by
looking for `a` among the parents of all elements; depths show that this ends and that no
element is found twice.
-/

namespace SkUtils.Library.ForestListing

open SkUtils.Library.ParentForest

variable {α : Type*} {p : α → α}

/-- The number of steps to the root. -/
inductive DepthOf (p : α → α) : α → Nat → Prop
  | root {r : α} (root : IsRoot p r) : DepthOf p r 0
  | child {x : α} {d : Nat} (notRoot : ¬ IsRoot p x) (parent : DepthOf p (p x) d) :
      DepthOf p x (d + 1)

/-- Following the parents from `x` leads to `a`, which may be `x`. -/
inductive Under (p : α → α) (a : α) : α → Prop
  | self : Under p a a
  | child {x : α} (notRoot : ¬ IsRoot p x) (parent : Under p a (p x)) : Under p a x

section Depths

theorem DepthOf.unique {x : α} {d d' : Nat} (h : DepthOf p x d) (h' : DepthOf p x d') :
    d = d' := by
  induction h generalizing d' with
  | root hroot =>
      cases h' with
      | root _ => rfl
      | child hnot _ => exact absurd hroot hnot
  | child hnot _ ih =>
      cases h' with
      | root hroot => exact absurd hroot hnot
      | child _ hparent => rw [ih hparent]

theorem DepthOf.le_of_iterate {x : α} {d k : Nat} (h : DepthOf p x d)
    (hk : IsRoot p (p^[k] x)) : d ≤ k := by
  induction h generalizing k with
  | root _ => exact Nat.zero_le k
  | child hnot _ ih =>
      cases k with
      | zero => exact absurd hk hnot
      | succ k => exact Nat.succ_le_succ (ih hk)

theorem DepthOf.lt_card [Fintype α] (hp : Forest p) {x : α} {d : Nat} (h : DepthOf p x d) :
    d < Fintype.card α := by
  obtain ⟨r, hr⟩ := hp x
  obtain ⟨k, hlt, hk⟩ := hr.depth_lt_card
  exact (h.le_of_iterate (hk ▸ hr.isRoot)).trans_lt hlt

theorem DepthOf.of_parent {c a : α} {d : Nat} (h : DepthOf p a d) (hc : p c = a) (hne : c ≠ a) :
    DepthOf p c (d + 1) := by
  subst hc
  exact .child (fun hroot => hne hroot.symm) h

theorem Under.depth_le {a x : α} {d e : Nat} (h : Under p a x) (ha : DepthOf p a d)
    (hx : DepthOf p x e) : d ≤ e := by
  induction h generalizing e with
  | self => exact (ha.unique hx).le
  | child hnot _ ih =>
      cases hx with
      | root hroot => exact absurd hroot hnot
      | child _ hparent => exact (ih hparent).trans (Nat.le_succ _)

/-- An element is below one element of each depth. -/
theorem Under.unique {a b x : α} {d : Nat} (h : Under p a x) (h' : Under p b x)
    (ha : DepthOf p a d) (hb : DepthOf p b d) : a = b := by
  have htop : ∀ {a b}, Under p b a → DepthOf p a d → DepthOf p b d → a = b := by
    intro a b h ha hb
    cases h with
    | self => rfl
    | child hnot hparent =>
        cases ha with
        | root hroot => exact absurd hroot hnot
        | child _ ha' => exact absurd (hparent.depth_le hb ha') (Nat.not_succ_le_self _)
  induction h with
  | self => exact htop h' ha hb
  | @child x hnot hparent ih =>
      cases h' with
      | self => exact (htop (.child hnot hparent) hb ha).symm
      | child _ hparent' => exact ih hparent'

theorem under_iff_rootOf {r : α} (hr : IsRoot p r) (x : α) : Under p r x ↔ RootOf p x r := by
  constructor
  · intro h
    induction h with
    | self => exact .root hr
    | child _ _ ih => exact .child ih
  · intro h
    induction h with
    | root _ => exact .self
    | @child x r _ ih =>
        by_cases hroot : IsRoot p x
        · have hx : p x = x := hroot
          rw [hx] at ih
          exact ih hr
        · exact .child hroot (ih hr)

/-- Below `a` there is `a`, and what is below the elements whose parent is `a`. -/
theorem under_iff {a x : α} :
    Under p a x ↔ x = a ∨ ∃ c, (p c = a ∧ c ≠ a) ∧ Under p c x := by
  constructor
  · intro h
    induction h with
    | self => exact .inl rfl
    | @child x hnot _ ih =>
        rcases ih with rfl | ⟨c, hc, hbelow⟩
        · exact .inr ⟨x, ⟨rfl, fun heq => hnot heq.symm⟩, .self⟩
        · exact .inr ⟨c, hc, .child hnot hbelow⟩
  · rintro (rfl | ⟨c, ⟨rfl, hne⟩, hbelow⟩)
    · exact .self
    · induction hbelow with
      | self => exact .child (fun hroot => hne hroot.symm) .self
      | child hnot _ ih => exact .child hnot ih

/-- The depths are below `bound`, and `fuel` suffices from the depth of `a` on. -/
structure Suffices (p : α → α) (fuel : Nat) (a : α) (bound : Nat) : Prop where
  bounded : ∀ x d, DepthOf p x d → d < bound
  enough : ∀ d, DepthOf p a d → bound ≤ fuel + d
  deep : ∃ d, DepthOf p a d

theorem Suffices.fuel_pos {fuel bound : Nat} {a : α} (h : Suffices p fuel a bound) : 0 < fuel := by
  obtain ⟨d, hd⟩ := h.deep
  have hlt := h.bounded a d hd
  have hle := h.enough d hd
  omega

theorem Suffices.child {fuel bound : Nat} {a c : α} (h : Suffices p (fuel + 1) a bound)
    (hc : p c = a) (hne : c ≠ a) : Suffices p fuel c bound := by
  obtain ⟨d, hd⟩ := h.deep
  have hchild := hd.of_parent hc hne
  refine ⟨h.bounded, fun e he => ?_, ⟨d + 1, hchild⟩⟩
  have hle := h.enough d hd
  have heq := he.unique hchild
  omega

end Depths

section Listing

variable [DecidableEq α] {elems : List α}

def children (p : α → α) (elems : List α) (a : α) : List α :=
  elems.filter fun x => p x = a ∧ x ≠ a

/-- `a` and what is below it, down to a depth of `fuel`. -/
def descend (p : α → α) (elems : List α) : Nat → α → List α
  | 0, _ => []
  | fuel + 1, a => a :: (children p elems a).flatMap (descend p elems fuel)

theorem mem_children {a c : α} :
    c ∈ children p elems a ↔ c ∈ elems ∧ p c = a ∧ c ≠ a := by
  simp [children]

theorem mem_descend {fuel bound : Nat} {a x : α} (helems : ∀ x, x ∈ elems)
    (h : Suffices p fuel a bound) : x ∈ descend p elems fuel a ↔ Under p a x := by
  induction fuel generalizing a with
  | zero => exact absurd h.fuel_pos (Nat.lt_irrefl 0)
  | succ fuel ih =>
      rw [descend, List.mem_cons, List.mem_flatMap, under_iff]
      refine or_congr_right (exists_congr fun c => ?_)
      rw [mem_children]
      constructor
      · rintro ⟨⟨-, hc⟩, hx⟩
        exact ⟨hc, (ih (h.child hc.1 hc.2)).mp hx⟩
      · rintro ⟨hc, hx⟩
        exact ⟨⟨helems c, hc⟩, (ih (h.child hc.1 hc.2)).mpr hx⟩

theorem nodup_descend {fuel bound : Nat} {a : α} (helems : ∀ x, x ∈ elems)
    (hnodup : elems.Nodup) (h : Suffices p fuel a bound) : (descend p elems fuel a).Nodup := by
  induction fuel generalizing a with
  | zero => exact .nil
  | succ fuel ih =>
      obtain ⟨d, hd⟩ := h.deep
      have hbelow : ∀ {c}, c ∈ children p elems a →
          Suffices p fuel c bound ∧ DepthOf p c (d + 1) := by
        intro c hc
        obtain ⟨-, hparent, hne⟩ := mem_children.mp hc
        exact ⟨h.child hparent hne, hd.of_parent hparent hne⟩
      rw [descend, List.nodup_cons, List.mem_flatMap, List.nodup_flatMap]
      refine ⟨?_, fun c hc => ih (hbelow hc).1, ?_⟩
      · rintro ⟨c, hc, hmem⟩
        obtain ⟨hfuel, hdepth⟩ := hbelow hc
        have hle := ((mem_descend helems hfuel).mp hmem).depth_le hdepth hd
        omega
      · have hchildren : (children p elems a).Nodup := hnodup.filter _
        refine List.Nodup.pairwise_of_forall_ne hchildren fun c hc c' hc' hne x hx hx' => ?_
        obtain ⟨hfuel, hdepth⟩ := hbelow hc
        obtain ⟨hfuel', hdepth'⟩ := hbelow hc'
        exact hne (((mem_descend helems hfuel).mp hx).unique
          ((mem_descend helems hfuel').mp hx') hdepth hdepth')

end Listing

end SkUtils.Library.ForestListing
