import Mathlib.Data.Fintype.Card
import Mathlib.Data.Set.Card
import Mathlib.Logic.Function.Iterate
import Mathlib.Logic.Relation
import Mathlib.SetTheory.Cardinal.Finite

/-!
Forests given by a parent function, where a root is its own parent. Path
compression keeps every root, linking two roots joins two trees, and the trees
represent the equivalence generated by the pairs joined so far.
-/

namespace SkUtils.Library.ParentForest

open Relation

variable {α : Type*}

def IsRoot (p : α → α) (r : α) : Prop :=
  p r = r

/-- Following the parents from `x` ends in the root `r`. -/
inductive RootOf (p : α → α) : α → α → Prop
  | root {r : α} (root : IsRoot p r) : RootOf p r r
  | child {x r : α} (parent : RootOf p (p x) r) : RootOf p x r

/-- No cycle but the roots: every element has a root. -/
def Forest (p : α → α) : Prop :=
  ∀ x, ∃ r, RootOf p x r

section Roots

variable {p : α → α}

theorem RootOf.isRoot {x r : α} (h : RootOf p x r) : IsRoot p r := by
  induction h with
  | root hr => exact hr
  | child _ ih => exact ih

theorem RootOf.parent {x r : α} (h : RootOf p x r) : RootOf p (p x) r := by
  cases h with
  | root hr =>
      rw [show p x = x from hr]
      exact .root hr
  | child hparent => exact hparent

theorem IsRoot.eq_of_rootOf {x r : α} (h : IsRoot p x) (hr : RootOf p x r) : r = x := by
  induction hr with
  | root _ => rfl
  | @child x r _ ih =>
      have hx : p x = x := h
      rw [hx] at ih
      exact ih h

theorem RootOf.unique {x r s : α} (hr : RootOf p x r) (hs : RootOf p x s) : r = s := by
  induction hr with
  | root hroot => exact (hroot.eq_of_rootOf hs).symm
  | child _ ih => exact ih hs.parent

theorem RootOf.exists_iterate {x r : α} (h : RootOf p x r) : ∃ k, p^[k] x = r := by
  induction h with
  | root _ => exact ⟨0, rfl⟩
  | child _ ih =>
      obtain ⟨k, hk⟩ := ih
      exact ⟨k + 1, hk⟩

theorem RootOf.iterate {x r : α} (h : RootOf p x r) (k : Nat) : RootOf p (p^[k] x) r := by
  induction k generalizing x with
  | zero => exact h
  | succ k ih => exact ih h.parent

end Roots

section Depth

variable {p : α → α}

/-- A shortest path to a root visits every element at most once. -/
theorem RootOf.exists_path {x r : α} (h : RootOf p x r) :
    ∃ k, p^[k] x = r ∧ ∀ i j, i < j → j ≤ k → p^[i] x ≠ p^[j] x := by
  classical
  have hpath := h.exists_iterate
  refine ⟨Nat.find hpath, Nat.find_spec hpath, fun i j hij hjk heq => ?_⟩
  -- a repetition would cut the path short
  have hshort : p^[Nat.find hpath - j + i] x = r := by
    rw [Function.iterate_add_apply, heq, ← Function.iterate_add_apply,
      Nat.sub_add_cancel (by omega)]
    exact Nat.find_spec hpath
  exact Nat.find_min hpath (by omega) hshort

theorem injOn_iterate {x : α} {k : Nat}
    (hpath : ∀ i j, i < j → j ≤ k → p^[i] x ≠ p^[j] x) :
    Set.InjOn (fun i => p^[i] x) (Set.Iic k) := by
  intro i hi j hj heq
  rcases lt_trichotomy i j with hlt | rfl | hgt
  · exact absurd heq (hpath i j hlt hj)
  · rfl
  · exact absurd heq.symm (hpath j i hgt hi)

/-- The elements before the root lie in any set that holds what is not a root. -/
theorem RootOf.depth_le_card {S : Finset α} (hS : ∀ x, x ∉ S → IsRoot p x) {x r : α}
    (h : RootOf p x r) : ∃ k, k ≤ S.card ∧ p^[k] x = r := by
  obtain ⟨k, hk, hpath⟩ := h.exists_path
  refine ⟨k, ?_, hk⟩
  have hmaps : ∀ i ∈ Finset.range k, p^[i] x ∈ S := by
    intro i hi
    by_contra hnot
    have hir : r = p^[i] x := (hS _ hnot).eq_of_rootOf (h.iterate i)
    exact hpath i k (Finset.mem_range.mp hi) le_rfl (hir.symm.trans hk.symm)
  have hinj : Set.InjOn (fun i => p^[i] x) (Finset.range k) :=
    (injOn_iterate hpath).mono fun i hi => (Finset.mem_range.mp hi).le
  simpa using Finset.card_le_card_of_injOn _ hmaps hinj

theorem RootOf.depth_lt_card [Fintype α] {x r : α} (h : RootOf p x r) :
    ∃ k, k < Fintype.card α ∧ p^[k] x = r := by
  obtain ⟨k, hk, hpath⟩ := h.exists_path
  refine ⟨k, ?_, hk⟩
  have hinj : Set.InjOn (fun i => p^[i] x) (Finset.range (k + 1)) :=
    (injOn_iterate hpath).mono fun i hi => Nat.le_of_lt_succ (Finset.mem_range.mp hi)
  simpa using Finset.card_le_card_of_injOn (t := Finset.univ) _ (by simp) hinj

end Depth

section Compression

variable {p q : α → α}

/-- `q` is `p` with some elements moved directly below their roots. -/
structure Compresses (p q : α → α) : Prop where
  rootOf_iff : ∀ x r, RootOf q x r ↔ RootOf p x r
  entry : ∀ x, q x = p x ∨ RootOf p x (q x)

theorem Compresses.refl (p : α → α) : Compresses p p :=
  ⟨fun _ _ => Iff.rfl, fun _ => .inl rfl⟩

theorem Compresses.trans {p' : α → α} (h : Compresses p q) (h' : Compresses q p') :
    Compresses p p' where
  rootOf_iff := fun x r => (h'.rootOf_iff x r).trans (h.rootOf_iff x r)
  entry := by
    intro x
    rcases h'.entry x with heq | hroot
    · rw [heq]
      exact h.entry x
    · exact .inr ((h.rootOf_iff x _).mp hroot)

theorem Compresses.forest (h : Compresses p q) (hp : Forest p) : Forest q := by
  intro x
  obtain ⟨r, hr⟩ := hp x
  exact ⟨r, (h.rootOf_iff x r).mpr hr⟩

theorem Compresses.isRoot_iff (h : Compresses p q) {r : α} : IsRoot q r ↔ IsRoot p r :=
  ⟨fun hr => ((h.rootOf_iff r r).mp (.root hr)).isRoot,
    fun hr => ((h.rootOf_iff r r).mpr (.root hr)).isRoot⟩

theorem Compresses.isRoot_parent (h : Compresses p q) {x : α} (hx : IsRoot p (p x)) :
    IsRoot q (q x) := by
  rcases h.entry x with heq | hroot
  · rw [heq]
    exact h.isRoot_iff.mpr hx
  · exact h.isRoot_iff.mpr hroot.isRoot

theorem compresses_update [DecidableEq α] (hp : Forest p) {x r : α} (hr : RootOf p x r) :
    Compresses p (Function.update p x r) := by
  have hroot : IsRoot (Function.update p x r) r := by
    rcases eq_or_ne r x with rfl | hrx
    · exact Function.update_self ..
    · rw [IsRoot, Function.update_of_ne hrx]
      exact hr.isRoot
  have hforward : ∀ {y s : α}, RootOf p y s → RootOf (Function.update p x r) y s := by
    intro y s hys
    induction hys with
    | @root s hs =>
        rcases eq_or_ne s x with rfl | hsx
        · obtain rfl : r = s := hs.eq_of_rootOf hr
          exact .root hroot
        · refine .root ?_
          rw [IsRoot, Function.update_of_ne hsx]
          exact hs
    | @child y s hys ih =>
        apply RootOf.child
        rcases eq_or_ne y x with rfl | hyx
        · obtain rfl : r = s := hr.parent.unique hys
          rw [Function.update_self]
          exact .root hroot
        · rw [Function.update_of_ne hyx]
          exact ih
  refine ⟨fun y s => ⟨fun hys => ?_, hforward⟩, fun y => ?_⟩
  · obtain ⟨t, ht⟩ := hp y
    exact (hforward ht).unique hys ▸ ht
  · rcases eq_or_ne y x with rfl | hyx
    · rw [Function.update_self]
      exact .inr hr
    · exact .inl (Function.update_of_ne hyx ..)

end Compression

section Link

variable [DecidableEq α] {p : α → α} {a b : α}

theorem rootOf_link (ha : IsRoot p a) (hb : IsRoot p b) (hab : a ≠ b) {x r : α}
    (h : RootOf p x r) :
    RootOf (Function.update p b a) x (if r = b then a else r) := by
  have ha' : IsRoot (Function.update p b a) a := by
    rw [IsRoot, Function.update_of_ne hab]
    exact ha
  induction h with
  | @root r hr =>
      rcases eq_or_ne r b with rfl | hrb
      · rw [if_pos rfl]
        apply RootOf.child
        rw [Function.update_self]
        exact .root ha'
      · rw [if_neg hrb]
        refine .root ?_
        rw [IsRoot, Function.update_of_ne hrb]
        exact hr
  | @child x r hx ih =>
      apply RootOf.child
      rcases eq_or_ne x b with rfl | hxb
      · obtain rfl : r = x := hb.eq_of_rootOf (.child hx)
        rw [if_pos rfl, Function.update_self]
        exact .root ha'
      · rw [Function.update_of_ne hxb]
        exact ih

theorem forest_link (hp : Forest p) (ha : IsRoot p a) (hb : IsRoot p b) (hab : a ≠ b) :
    Forest (Function.update p b a) := by
  intro x
  obtain ⟨r, hr⟩ := hp x
  exact ⟨_, rootOf_link ha hb hab hr⟩

theorem isRoot_link_iff (hab : a ≠ b) {r : α} :
    IsRoot (Function.update p b a) r ↔ IsRoot p r ∧ r ≠ b := by
  rcases eq_or_ne r b with rfl | hrb
  · simp [IsRoot, hab]
  · simp [IsRoot, hrb]

theorem card_roots_link_in {S : Set α} (hS : S.Finite) (hb : IsRoot p b) (hbS : b ∈ S)
    (hab : a ≠ b) :
    Nat.card {r // r ∈ S ∧ IsRoot (Function.update p b a) r} + 1 =
      Nat.card {r // r ∈ S ∧ IsRoot p r} := by
  have hset : {r | r ∈ S ∧ IsRoot (Function.update p b a) r} =
      {r | r ∈ S ∧ IsRoot p r} \ {b} := by
    ext r
    exact (and_congr_right fun _ => isRoot_link_iff hab).trans and_assoc.symm
  change Nat.card {r | r ∈ S ∧ IsRoot (Function.update p b a) r} + 1 =
    Nat.card {r | r ∈ S ∧ IsRoot p r}
  rw [hset, Nat.card_coe_set_eq, Nat.card_coe_set_eq]
  exact Set.ncard_sdiff_singleton_add_one ⟨hbS, hb⟩ (hS.subset fun _ hr => hr.1)

theorem card_roots_link [Finite α] (hb : IsRoot p b) (hab : a ≠ b) :
    Nat.card {r // IsRoot (Function.update p b a) r} + 1 = Nat.card {r // IsRoot p r} := by
  simpa using card_roots_link_in Set.finite_univ hb (Set.mem_univ b) hab

omit [DecidableEq α] in
theorem card_roots_insert {S : Set α} (hS : S.Finite) (hb : IsRoot p b) (hbS : b ∉ S) :
    Nat.card {r // r ∈ insert b S ∧ IsRoot p r} = Nat.card {r // r ∈ S ∧ IsRoot p r} + 1 := by
  have hset : {r | r ∈ insert b S ∧ IsRoot p r} = insert b {r | r ∈ S ∧ IsRoot p r} := by
    ext r
    rcases eq_or_ne r b with rfl | hrb
    · simp [hb]
    · simp [hrb]
  change Nat.card {r | r ∈ insert b S ∧ IsRoot p r} = Nat.card {r | r ∈ S ∧ IsRoot p r} + 1
  rw [hset, Nat.card_coe_set_eq, Nat.card_coe_set_eq]
  exact Set.ncard_insert_of_notMem (fun h => hbS h.1) (hS.subset fun _ hr => hr.1)

end Link

section Classes

/-- The trees of `p` are the classes of the equivalence generated by `rel`. -/
structure Represents (p : α → α) (rel : α → α → Prop) : Prop where
  forest : Forest p
  sameRoot_iff : ∀ x y, (∃ r, RootOf p x r ∧ RootOf p y r) ↔ EqvGen rel x y

variable {p q : α → α} {rel : α → α → Prop}

theorem Represents.compress (h : Represents p rel) (hpq : Compresses p q) :
    Represents q rel where
  forest := hpq.forest h.forest
  sameRoot_iff := by
    intro x y
    simp only [hpq.rootOf_iff]
    exact h.sameRoot_iff x y

theorem Represents.root_eq_iff (h : Represents p rel) {x y r s : α} (hx : RootOf p x r)
    (hy : RootOf p y s) : r = s ↔ EqvGen rel x y := by
  rw [← h.sameRoot_iff]
  constructor
  · rintro rfl
    exact ⟨r, hx, hy⟩
  · rintro ⟨t, hxt, hyt⟩
    exact (hx.unique hxt).trans (hyt.unique hy)

theorem Represents.congr {rel' : α → α → Prop} (h : Represents p rel)
    (hrel : ∀ x y, EqvGen rel x y ↔ EqvGen rel' x y) : Represents p rel' where
  forest := h.forest
  sameRoot_iff := fun x y => (h.sameRoot_iff x y).trans (hrel x y)

theorem eqvGen_iff_eq {x y : α} : EqvGen (fun _ _ : α => False) x y ↔ x = y := by
  constructor
  · intro h
    induction h with
    | rel _ _ hfalse => exact hfalse.elim
    | refl _ => rfl
    | symm _ _ _ ih => exact ih.symm
    | trans _ _ _ _ _ ih ih' => exact ih.trans ih'
  · rintro rfl
    exact .refl _

theorem represents_id : Represents (id : α → α) fun _ _ => False where
  forest := fun x => ⟨x, .root rfl⟩
  sameRoot_iff := by
    intro x y
    rw [eqvGen_iff_eq]
    constructor
    · rintro ⟨r, hx, hy⟩
      have hrx : r = x := IsRoot.eq_of_rootOf (p := id) rfl hx
      have hry : r = y := IsRoot.eq_of_rootOf (p := id) rfl hy
      exact hrx.symm.trans hry
    · rintro rfl
      exact ⟨x, .root rfl, .root rfl⟩

def join (rel : α → α → Prop) (a b : α) : α → α → Prop :=
  fun x y => rel x y ∨ x = a ∧ y = b

theorem eqvGen_join_of_eqvGen {a b x y : α} (h : EqvGen rel x y) :
    EqvGen (join rel a b) x y :=
  EqvGen.mono (r := rel) (p := join rel a b) (fun _ _ hxy => Or.inl hxy) _ _ h

theorem eqvGen_join (rel : α → α → Prop) (a b : α) : EqvGen (join rel a b) a b :=
  .rel _ _ (.inr ⟨rfl, rfl⟩)

theorem Represents.eqvGen_root (h : Represents p rel) {x r : α} (hr : RootOf p x r) :
    EqvGen rel x r :=
  (h.sameRoot_iff x r).mp ⟨r, hr, .root hr.isRoot⟩

/-- A forest represents a relation when its trees respect the pairs and every
element is related to its root. -/
theorem represents_of (hforest : Forest p)
    (hrel : ∀ x y, rel x y → ∃ r, RootOf p x r ∧ RootOf p y r)
    (hroot : ∀ x r, RootOf p x r → EqvGen rel x r) : Represents p rel where
  forest := hforest
  sameRoot_iff := by
    intro x y
    constructor
    · rintro ⟨r, hx, hy⟩
      exact .trans _ _ _ (hroot x r hx) (.symm _ _ (hroot y r hy))
    · intro h
      induction h with
      | rel x y hxy => exact hrel x y hxy
      | refl x =>
          obtain ⟨r, hr⟩ := hforest x
          exact ⟨r, hr, hr⟩
      | symm x y _ ih =>
          obtain ⟨r, hx, hy⟩ := ih
          exact ⟨r, hy, hx⟩
      | trans x y z _ _ ih ih' =>
          obtain ⟨r, hx, hy⟩ := ih
          obtain ⟨s, hy', hz⟩ := ih'
          obtain rfl : r = s := hy.unique hy'
          exact ⟨r, hx, hz⟩

theorem Represents.join_same (h : Represents p rel) {a b r : α} (ha : RootOf p a r)
    (hb : RootOf p b r) : Represents p (join rel a b) := by
  apply represents_of h.forest
  · rintro x y (hxy | ⟨rfl, rfl⟩)
    · exact (h.sameRoot_iff x y).mpr (.rel _ _ hxy)
    · exact ⟨r, ha, hb⟩
  · intro x s hs
    exact eqvGen_join_of_eqvGen (h.eqvGen_root hs)

theorem Represents.join_link [DecidableEq α] (h : Represents p rel) {a b ra rb : α}
    (ha : RootOf p a ra) (hb : RootOf p b rb) (hne : ra ≠ rb) :
    Represents (Function.update p rb ra) (join rel a b) := by
  have hlink : ∀ {x r}, RootOf p x r →
      RootOf (Function.update p rb ra) x (if r = rb then ra else r) :=
    fun hx => rootOf_link ha.isRoot hb.isRoot hne hx
  apply represents_of (forest_link h.forest ha.isRoot hb.isRoot hne)
  · rintro x y (hxy | ⟨rfl, rfl⟩)
    · obtain ⟨r, hx, hy⟩ := (h.sameRoot_iff x y).mpr (.rel _ _ hxy)
      exact ⟨_, hlink hx, hlink hy⟩
    · refine ⟨ra, ?_, ?_⟩
      · simpa [hne] using hlink ha
      · simpa using hlink hb
  · intro x s hs
    obtain ⟨r, hr⟩ := h.forest x
    have hxr := eqvGen_join_of_eqvGen (a := a) (b := b) (h.eqvGen_root hr)
    rw [hs.unique (hlink hr)]
    split
    · rename_i hrb
      -- from `x` over its old root to `b`, to `a`, and to the root of `a`
      have hxb : EqvGen (join rel a b) x b :=
        .trans _ _ _ (hrb ▸ hxr)
          (.symm _ _ (eqvGen_join_of_eqvGen (h.eqvGen_root hb)))
      exact .trans _ _ _ hxb
        (.trans _ _ _ (.symm _ _ (eqvGen_join rel a b))
          (eqvGen_join_of_eqvGen (h.eqvGen_root ha)))
    · exact hxr

theorem eqvGen_join_comm {a b x y : α} :
    EqvGen (join rel a b) x y ↔ EqvGen (join rel b a) x y := by
  have hone : ∀ {a b x y : α}, EqvGen (join rel a b) x y → EqvGen (join rel b a) x y := by
    intro a b x y h
    induction h with
    | rel x y hxy =>
        rcases hxy with hxy | ⟨rfl, rfl⟩
        · exact .rel _ _ (.inl hxy)
        · exact .symm _ _ (eqvGen_join rel y x)
    | refl x => exact .refl x
    | symm x y _ ih => exact .symm _ _ ih
    | trans x y z _ _ ih ih' => exact .trans _ _ _ ih ih'
  exact ⟨hone, hone⟩

/-- Renaming without collisions does not relate anything new. -/
theorem eqvGen_map_iff {β : Type*} {rel : β → β → Prop} (f : β ↪ α) {i j : β} :
    EqvGen (Relation.Map rel f f) (f i) (f j) ↔ EqvGen rel i j := by
  constructor
  · have hpreimage : ∀ {x y : α}, EqvGen (Relation.Map rel f f) x y →
        x = y ∨ ∃ i j, f i = x ∧ f j = y ∧ EqvGen rel i j := by
      intro x y h
      induction h with
      | rel x y hxy =>
          obtain ⟨i, j, hij, hi, hj⟩ := hxy
          exact .inr ⟨i, j, hi, hj, .rel _ _ hij⟩
      | refl x => exact .inl rfl
      | symm x y _ ih =>
          rcases ih with rfl | ⟨i, j, hi, hj, hij⟩
          · exact .inl rfl
          · exact .inr ⟨j, i, hj, hi, .symm _ _ hij⟩
      | trans x y z _ _ ih ih' =>
          rcases ih with rfl | ⟨i, j, hi, hj, hij⟩
          · exact ih'
          · rcases ih' with rfl | ⟨j', k, hj', hk, hjk⟩
            · exact .inr ⟨i, j, hi, hj, hij⟩
            · obtain rfl := f.injective (hj.trans hj'.symm)
              exact .inr ⟨i, k, hi, hk, .trans _ _ _ hij hjk⟩
    intro h
    rcases hpreimage h with heq | ⟨i', j', hi, hj, hij⟩
    · exact f.injective heq ▸ .refl i
    · obtain rfl := f.injective hi
      obtain rfl := f.injective hj
      exact hij
  · intro h
    induction h with
    | rel i j hij => exact .rel _ _ ⟨i, j, hij, rfl, rfl⟩
    | refl i => exact .refl _
    | symm i j _ ih => exact .symm _ _ ih
    | trans i j k _ _ ih ih' => exact .trans _ _ _ ih ih'

/-- Within a set that holds the roots of its elements, every class has one root. -/
theorem Represents.card_roots_in (h : Represents p rel) {S : Set α}
    (hS : ∀ x r, x ∈ S → RootOf p x r → r ∈ S) :
    Nat.card {r // r ∈ S ∧ IsRoot p r} =
      Nat.card (Quotient ((EqvGen.setoid rel).comap (Subtype.val : S → α))) := by
  let classOf : {r // r ∈ S ∧ IsRoot p r} →
      Quotient ((EqvGen.setoid rel).comap (Subtype.val : S → α)) :=
    fun r => Quotient.mk _ ⟨r.1, r.2.1⟩
  refine Nat.card_eq_of_bijective classOf ⟨?_, ?_⟩
  · rintro ⟨r, hrS, hr⟩ ⟨s, hsS, hs⟩ heq
    obtain ⟨t, hrt, hst⟩ := (h.sameRoot_iff r s).mpr (Quotient.exact heq)
    have htr : t = r := hr.eq_of_rootOf hrt
    have hts : t = s := hs.eq_of_rootOf hst
    exact Subtype.ext (htr.symm.trans hts)
  · intro c
    induction c using Quotient.inductionOn with
    | h x =>
        obtain ⟨r, hr⟩ := h.forest x.1
        exact ⟨⟨r, hS _ _ x.2 hr, hr.isRoot⟩,
          Quotient.sound (.symm _ _ (h.eqvGen_root hr))⟩

theorem Represents.card_roots (h : Represents p rel) :
    Nat.card {r // IsRoot p r} = Nat.card (Quotient (EqvGen.setoid rel)) := by
  calc
    Nat.card {r // IsRoot p r} = Nat.card {r // r ∈ Set.univ ∧ IsRoot p r} :=
      Nat.card_congr (Equiv.subtypeEquivRight fun r => by simp)
    _ = Nat.card (Quotient ((EqvGen.setoid rel).comap (Subtype.val : Set.univ → α))) :=
      h.card_roots_in fun _ _ _ _ => trivial
    _ = Nat.card (Quotient (EqvGen.setoid rel)) :=
      Nat.card_congr (Quotient.congr (Equiv.Set.univ α) fun _ _ => Iff.rfl)

end Classes

end SkUtils.Library.ParentForest
