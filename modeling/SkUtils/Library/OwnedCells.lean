import Mathlib.Data.List.Nodup
import Mathlib.Data.List.Perm.Subperm
import Mathlib.Data.List.Range
import Mathlib.Data.Set.Lattice
import Mathlib.Logic.Function.Basic
import Mathlib.Logic.Relation
import Mathlib.Order.CompletePartialOrder
import Mathlib.Order.WellFounded

/-!
Cells and the slots that own them. A slot has the handle of one cell or none, and lives in a
cell or outside of all. The end of a cell is the end of the slots in it, and the end of a slot
is the end of its cell.
-/

namespace SkUtils.Library.OwnedCells

open Relation

structure Slot where
  handle : Option Nat
  home : Option Nat
deriving DecidableEq

structure Heap where
  slots : Nat → Option Slot
  slotCount : Nat
  cellCount : Nat
  destroyed : List Nat

namespace Heap

def empty : Heap where
  slots := fun _ => none
  slotCount := 0
  cellCount := 0
  destroyed := []

def Alive (h : Heap) (c : Nat) : Prop :=
  c < h.cellCount ∧ c ∉ h.destroyed

instance (h : Heap) (c : Nat) : Decidable (h.Alive c) :=
  inferInstanceAs (Decidable (_ ∧ _))

def setHandle (h : Heap) (s : Nat) (handle : Option Nat) : Heap :=
  { h with slots := Function.update h.slots s ((h.slots s).map fun slot => { slot with handle }) }

def remove (h : Heap) (s : Nat) : Heap :=
  { h with slots := Function.update h.slots s none }

/-- A new slot without a handle. -/
def addSlot (h : Heap) (home : Option Nat) : Heap :=
  { h with
    slots := Function.update h.slots h.slotCount (some ⟨none, home⟩)
    slotCount := h.slotCount + 1 }

/-- A new cell for the slot `s`. -/
def fill (h : Heap) (s : Nat) : Heap :=
  { h.setHandle s (some h.cellCount) with cellCount := h.cellCount + 1 }

/-- The handle of `other` goes to the slot `s`. -/
def transfer (h : Heap) (s other : Nat) : Heap :=
  (h.setHandle s ((h.slots other).bind Slot.handle)).setHandle other none

/-- The slots that live in `c`, the youngest first. -/
def locals (h : Heap) (c : Nat) : List Nat :=
  (List.range h.slotCount).reverse.filter fun s => (h.slots s).any fun slot => slot.home = some c

/-- The end of the slot `s`, when `destroy` ends a cell. -/
def releaseWith (destroy : Heap → Nat → Option Heap) (h : Heap) (s : Nat) : Option Heap := do
  let slot ← h.slots s
  let h ← slot.handle.elim (some h) (destroy h)
  some (h.remove s)

/-- It fails where a cell ends for the second time. -/
def destroyWith : Nat → Heap → Nat → Option Heap
  | 0, _, _ => none
  | fuel + 1, h, c =>
      if h.Alive c then
        (h.locals c).foldlM (releaseWith (destroyWith fuel))
          { h with destroyed := h.destroyed ++ [c] }
      else none

/-- Each level of the recursion ends a cell of its own. -/
def destroy (h : Heap) (c : Nat) : Option Heap :=
  destroyWith (h.cellCount + 1) h c

def release (h : Heap) (s : Nat) : Option Heap :=
  releaseWith destroy h s

/-- A slot in `c` has the handle of `d`. -/
def Holds (h : Heap) (c d : Nat) : Prop :=
  ∃ s, h.slots s = some ⟨some d, some c⟩

/-- `c` and the cells that slots in it own, at any depth. -/
def below (h : Heap) (c : Nat) : Set Nat :=
  {d | ReflTransGen h.Holds c d}

/-- The slots in `c` and in the cells below it. -/
def inside (h : Heap) (c : Nat) : Set Nat :=
  {s | ∃ slot d, h.slots s = some slot ∧ slot.home = some d ∧ d ∈ h.below c}

/-- A chain of handles leads from a slot outside of all cells to the cell. -/
inductive Held (h : Heap) : Nat → Prop
  | outside {s c : Nat} (slot : h.slots s = some ⟨some c, none⟩) : Held h c
  | inside {s c d : Nat} (home : Held h d) (slot : h.slots s = some ⟨some c, some d⟩) : Held h c

end Heap

/-- Every cell that has not ended has one owner, and chains of owners lead outside. -/
structure WellFormed (h : Heap) : Prop where
  slot_lt : ∀ s slot, h.slots s = some slot → s < h.slotCount
  home_alive : ∀ s slot c, h.slots s = some slot → slot.home = some c → h.Alive c
  handle_alive : ∀ s slot c, h.slots s = some slot → slot.handle = some c → h.Alive c
  unique : ∀ s t slot slot' c, h.slots s = some slot → h.slots t = some slot' →
    slot.handle = some c → slot'.handle = some c → s = t
  held : ∀ c, h.Alive c → h.Held c
  wellFounded : WellFounded fun d c => h.Holds c d
  destroyed_lt : ∀ c ∈ h.destroyed, c < h.cellCount
  nodup : h.destroyed.Nodup

section Trees

variable {h : Heap} {a b c d x : Nat}

theorem mem_below_self : c ∈ h.below c :=
  ReflTransGen.refl

theorem below_of_holds (hc : h.Holds c d) (hx : x ∈ h.below d) : x ∈ h.below c :=
  ReflTransGen.head hc hx

theorem mem_below_of_holds (hx : x ∈ h.below c) (hd : h.Holds x d) : d ∈ h.below c :=
  ReflTransGen.tail hx hd

theorem WellFormed.holder_unique (hwf : WellFormed h) (ha : h.Holds a x) (hb : h.Holds b x) :
    a = b := by
  obtain ⟨s, hs⟩ := ha
  obtain ⟨t, ht⟩ := hb
  obtain rfl := hwf.unique s t _ _ x hs ht rfl rfl
  rw [hs] at ht
  cases ht
  rfl

theorem WellFormed.not_below_of_holds (hwf : WellFormed h) (hcd : h.Holds c d) :
    c ∉ h.below d := by
  intro hdc
  have hcycle : TransGen (fun d c => h.Holds c d) c c := by
    refine TransGen.tail' ?_ hcd
    exact reflTransGen_swap.mp hdc
  exact (hwf.wellFounded.transGen.irrefl).irrefl c hcycle

/-- The cells above a cell are on one path. -/
theorem WellFormed.below_total (hwf : WellFormed h) (ha : x ∈ h.below a) (hb : x ∈ h.below b) :
    b ∈ h.below a ∨ a ∈ h.below b := by
  induction ha with
  | refl => exact .inr hb
  | tail ha hstep ih =>
      rcases ReflTransGen.cases_tail hb with rfl | ⟨y, hy, hstep'⟩
      · exact .inl (ha.tail hstep)
      · obtain rfl := hwf.holder_unique hstep hstep'
        exact ih hy

theorem WellFormed.below_alive (hwf : WellFormed h) (hc : h.Alive c) (hx : x ∈ h.below c) :
    h.Alive x := by
  rcases ReflTransGen.cases_tail hx with rfl | ⟨y, -, s, hs⟩
  · exact hc
  · exact hwf.handle_alive s _ x hs rfl

/-- Two cells that slots of one cell own have nothing in common. -/
theorem WellFormed.below_disjoint (hwf : WellFormed h) (ha : h.Holds c a) (hb : h.Holds c b)
    (hne : a ≠ b) : Disjoint (h.below a) (h.below b) := by
  have hsep : ∀ {a b}, h.Holds c a → h.Holds c b → a ≠ b → b ∉ h.below a := by
    intro a b ha hb hne hba
    rcases ReflTransGen.cases_tail hba with rfl | ⟨y, hy, hstep⟩
    · exact hne rfl
    · obtain rfl := hwf.holder_unique hstep hb
      exact hwf.not_below_of_holds ha hy
  rw [Set.disjoint_left]
  intro x hxa hxb
  rcases hwf.below_total hxa hxb with hba | hab
  · exact hsep ha hb hne hba
  · exact hsep hb ha hne.symm hab

end Trees

/-- `h'` is `h` without the slots in `P` and with an end of the cells in `D`. -/
structure Erased (h : Heap) (P D : Set Nat) (h' : Heap) : Prop where
  gone : ∀ s ∈ P, h'.slots s = none
  kept : ∀ s, s ∉ P → h'.slots s = h.slots s
  slotCount_eq : h'.slotCount = h.slotCount
  cellCount_eq : h'.cellCount = h.cellCount
  mem_destroyed : ∀ c, c ∈ h'.destroyed ↔ c ∈ h.destroyed ∨ c ∈ D
  nodup : h'.destroyed.Nodup

section Destroy

variable {h h' h₁ : Heap} {P D Q F : Set Nat} {c d s fuel : Nat} {home : Option Nat}

theorem Erased.refl (hwf : WellFormed h) : Erased h ∅ ∅ h :=
  ⟨by simp, fun _ _ => rfl, rfl, rfl, by simp, hwf.nodup⟩

theorem Erased.alive_iff (he : Erased h P D h') (c : Nat) :
    h'.Alive c ↔ h.Alive c ∧ c ∉ D := by
  rw [Heap.Alive, Heap.Alive, he.cellCount_eq, he.mem_destroyed, not_or, and_assoc]

theorem Erased.remove (he : Erased h P D h') (s : Nat) :
    Erased h (insert s P) D (h'.remove s) where
  gone := by
    rintro t (rfl | ht)
    · exact Function.update_self ..
    · by_cases hts : t = s
      · subst hts
        exact Function.update_self ..
      · exact (Function.update_of_ne hts ..).trans (he.gone t ht)
  kept := by
    intro t ht
    obtain ⟨hts, ht⟩ := not_or.mp ht
    exact (Function.update_of_ne hts ..).trans (he.kept t ht)
  slotCount_eq := he.slotCount_eq
  cellCount_eq := he.cellCount_eq
  mem_destroyed := he.mem_destroyed
  nodup := he.nodup

/-- The list of the destroyed cells only grows. -/
theorem Erased.length_le (he : Erased h P D h₁) (he' : Erased h Q F h') (hsub : D ⊆ F) :
    h₁.destroyed.length ≤ h'.destroyed.length := by
  refine (List.subperm_of_subset he.nodup fun x hx => ?_).length_le
  rw [he.mem_destroyed] at hx
  exact (he'.mem_destroyed x).mpr (hx.imp_right fun hx => hsub hx)

theorem Erased.length_le_cellCount (hwf : WellFormed h) (he : Erased h P D h₁)
    (hD : ∀ x ∈ D, h.Alive x) : h₁.destroyed.length ≤ h.cellCount := by
  have hsub : h₁.destroyed ⊆ List.range h.cellCount := by
    intro x hx
    rw [he.mem_destroyed] at hx
    exact List.mem_range.mpr (hx.elim (hwf.destroyed_lt x) fun hx => (hD x hx).1)
  simpa using (List.subperm_of_subset he.nodup hsub).length_le

/-- The slots that end with the slot `s`. -/
def Heap.slotsOf (h : Heap) (s : Nat) : Set Nat :=
  {t | t = s ∨ ∃ slot d, h.slots s = some slot ∧ slot.handle = some d ∧ t ∈ h.inside d}

/-- The cells that end with the slot `s`. -/
def Heap.cellsOf (h : Heap) (s : Nat) : Set Nat :=
  {x | ∃ slot d, h.slots s = some slot ∧ slot.handle = some d ∧ x ∈ h.below d}

/-- `destroy` ends the cell `c`, whatever else of `h` has ended before. -/
def Destroys (h : Heap) (fuel c : Nat) : Prop :=
  ∀ {h₁ : Heap} {P D : Set Nat}, Erased h P D h₁ → Disjoint P (h.inside c) →
    Disjoint D (h.below c) → (∀ x ∈ D, h.Alive x) → h.cellCount < fuel + h₁.destroyed.length →
    ∃ h₂, Heap.destroyWith fuel h₁ c = some h₂ ∧
      Erased h (P ∪ h.inside c) (D ∪ h.below c) h₂

theorem slotsOf_none (hs : h.slots s = some ⟨none, home⟩) : h.slotsOf s = {s} := by
  ext t
  simp [Heap.slotsOf, hs]

theorem cellsOf_none (hs : h.slots s = some ⟨none, home⟩) : h.cellsOf s = ∅ := by
  ext x
  simp [Heap.cellsOf, hs]

theorem slotsOf_some (hs : h.slots s = some ⟨some d, home⟩) :
    h.slotsOf s = insert s (h.inside d) := by
  ext t
  simp [Heap.slotsOf, hs]

theorem cellsOf_some (hs : h.slots s = some ⟨some d, home⟩) : h.cellsOf s = h.below d := by
  ext x
  simp [Heap.cellsOf, hs]

theorem mem_slotsOf_self : s ∈ h.slotsOf s :=
  .inl rfl

theorem WellFormed.cellsOf_alive (hwf : WellFormed h) : ∀ x ∈ h.cellsOf s, h.Alive x := by
  rintro x ⟨slot, d, hs, hd, hx⟩
  exact hwf.below_alive (hwf.handle_alive s slot d hs hd) hx

/-- The end of one slot, when `destroy` ends its cell. -/
theorem releaseWith_spec {slot : Slot} (hs : h.slots s = some slot)
    (hdestroys : ∀ d, slot.handle = some d → Destroys h fuel d) (he : Erased h P D h₁)
    (hP : Disjoint P (h.slotsOf s)) (hD : Disjoint D (h.cellsOf s)) (halive : ∀ x ∈ D, h.Alive x)
    (hfuel : h.cellCount < fuel + h₁.destroyed.length) :
    ∃ h₂, Heap.releaseWith (Heap.destroyWith fuel) h₁ s = some h₂ ∧
      Erased h (P ∪ h.slotsOf s) (D ∪ h.cellsOf s) h₂ := by
  obtain ⟨handle, home⟩ := slot
  have hs₁ : h₁.slots s = some ⟨handle, home⟩ :=
    (he.kept s fun hmem => Set.disjoint_left.mp hP hmem mem_slotsOf_self).trans hs
  cases handle with
  | none =>
      refine ⟨h₁.remove s, by simp [Heap.releaseWith, hs₁], ?_⟩
      rw [slotsOf_none hs, cellsOf_none hs, Set.union_empty, Set.union_singleton]
      exact he.remove s
  | some d =>
      rw [slotsOf_some hs, Set.disjoint_insert_right] at hP
      rw [cellsOf_some hs] at hD
      obtain ⟨h₂, hrun, he₂⟩ := hdestroys d rfl he hP.2 hD halive hfuel
      refine ⟨h₂.remove s, by simp [Heap.releaseWith, hs₁, hrun], ?_⟩
      rw [slotsOf_some hs, cellsOf_some hs, Set.union_insert]
      exact he₂.remove s

/-- The end of several slots, one after the other. -/
theorem foldlM_releaseWith_spec (hwf : WellFormed h) {slots : List Nat}
    (hslots : ∀ s ∈ slots, ∃ slot, h.slots s = some slot ∧
      ∀ d, slot.handle = some d → Destroys h fuel d)
    (hapart : slots.Pairwise fun s t =>
      Disjoint (h.slotsOf s) (h.slotsOf t) ∧ Disjoint (h.cellsOf s) (h.cellsOf t))
    (he : Erased h P D h₁) (hP : ∀ s ∈ slots, Disjoint P (h.slotsOf s))
    (hD : ∀ s ∈ slots, Disjoint D (h.cellsOf s)) (halive : ∀ x ∈ D, h.Alive x)
    (hfuel : h.cellCount < fuel + h₁.destroyed.length) :
    ∃ h₂, slots.foldlM (Heap.releaseWith (Heap.destroyWith fuel)) h₁ = some h₂ ∧
      Erased h (P ∪ ⋃ s ∈ slots, h.slotsOf s) (D ∪ ⋃ s ∈ slots, h.cellsOf s) h₂ := by
  induction slots generalizing h₁ P D with
  | nil => exact ⟨h₁, rfl, by simpa using he⟩
  | cons s slots ih =>
      obtain ⟨⟨slot, hs, hdestroys⟩, hrest⟩ := List.forall_mem_cons.mp hslots
      obtain ⟨hfirst, hapart⟩ := List.pairwise_cons.mp hapart
      obtain ⟨hPs, hP⟩ := List.forall_mem_cons.mp hP
      obtain ⟨hDs, hD⟩ := List.forall_mem_cons.mp hD
      obtain ⟨h₂, hrun, he₂⟩ := releaseWith_spec hs hdestroys he hPs hDs halive hfuel
      have hle := he.length_le he₂ Set.subset_union_left
      obtain ⟨h₃, hruns, he₃⟩ := ih hrest hapart he₂
        (fun t ht => (hP t ht).union_left (hfirst t ht).1)
        (fun t ht => (hD t ht).union_left (hfirst t ht).2)
        (fun x hx => hx.elim (halive x) (hwf.cellsOf_alive x)) (by omega)
      refine ⟨h₃, ?_, ?_⟩
      · rw [List.foldlM_cons, hrun]
        exact hruns
      · simpa [Set.union_assoc] using he₃

end Destroy

section Cells

variable {h h' h₁ : Heap} {P D : Set Nat} {c d s t : Nat} {handle home : Option Nat}

theorem mem_inside : s ∈ h.inside c ↔
    ∃ handle d, h.slots s = some ⟨handle, some d⟩ ∧ d ∈ h.below c := by
  constructor
  · rintro ⟨⟨handle, home⟩, d, hs, rfl, hd⟩
    exact ⟨handle, d, hs, hd⟩
  · rintro ⟨handle, d, hs, hd⟩
    exact ⟨_, d, hs, rfl, hd⟩

theorem mem_inside_iff (hs : h.slots s = some ⟨handle, some d⟩) :
    s ∈ h.inside c ↔ d ∈ h.below c := by
  rw [mem_inside, hs]
  constructor
  · rintro ⟨_, _, heq, hd⟩
    cases heq
    exact hd
  · exact fun hd => ⟨_, _, rfl, hd⟩

theorem not_mem_inside_of_outside (hs : h.slots s = some ⟨handle, none⟩) : s ∉ h.inside c := by
  rw [mem_inside, hs]
  rintro ⟨_, _, heq, -⟩
  cases heq

theorem WellFormed.mem_locals (hwf : WellFormed h) :
    s ∈ h.locals c ↔ ∃ handle, h.slots s = some ⟨handle, some c⟩ := by
  rw [Heap.locals, List.mem_filter, List.mem_reverse, List.mem_range, Option.any_eq_true]
  constructor
  · rintro ⟨-, ⟨handle, home⟩, hs, hhome⟩
    obtain rfl := of_decide_eq_true hhome
    exact ⟨handle, hs⟩
  · rintro ⟨handle, hs⟩
    exact ⟨hwf.slot_lt s _ hs, _, hs, decide_eq_true rfl⟩

theorem nodup_locals (h : Heap) (c : Nat) : (h.locals c).Nodup :=
  List.Nodup.filter _ (List.nodup_reverse.mpr List.nodup_range)

theorem Erased.locals_eq (he : Erased h P D h₁) (hP : Disjoint P (h.inside c)) :
    h₁.locals c = h.locals c := by
  rw [Heap.locals, Heap.locals, he.slotCount_eq]
  refine List.filter_congr fun s _ => ?_
  by_cases hs : s ∈ P
  · have hnot : s ∉ h.inside c := Set.disjoint_left.mp hP hs
    rw [he.gone s hs]
    cases hslot : h.slots s with
    | none => rfl
    | some slot =>
        have hhome : slot.home ≠ some c :=
          fun hhome => hnot ⟨slot, c, hslot, hhome, mem_below_self⟩
        simp [hhome]
  · rw [he.kept s hs]

theorem WellFormed.inside_eq (hwf : WellFormed h) (c : Nat) :
    h.inside c = ⋃ s ∈ h.locals c, h.slotsOf s := by
  ext t
  simp only [Set.mem_iUnion, exists_prop, hwf.mem_locals]
  constructor
  · intro ht
    obtain ⟨handle, d, hslot, hd⟩ := mem_inside.mp ht
    rcases ReflTransGen.cases_head hd with rfl | ⟨x, ⟨s, hs⟩, hx⟩
    · exact ⟨t, ⟨handle, hslot⟩, mem_slotsOf_self⟩
    · refine ⟨s, ⟨some x, hs⟩, ?_⟩
      rw [slotsOf_some hs]
      exact .inr ((mem_inside_iff hslot).mpr hx)
  · rintro ⟨s, ⟨handle, hs⟩, ht⟩
    cases handle with
    | none =>
        rw [slotsOf_none hs, Set.mem_singleton_iff] at ht
        subst ht
        exact (mem_inside_iff hs).mpr mem_below_self
    | some d =>
        rw [slotsOf_some hs] at ht
        rcases ht with rfl | ht
        · exact (mem_inside_iff hs).mpr mem_below_self
        · obtain ⟨handle, x, hslot, hx⟩ := mem_inside.mp ht
          exact (mem_inside_iff hslot).mpr (below_of_holds ⟨s, hs⟩ hx)

theorem WellFormed.below_eq (hwf : WellFormed h) (c : Nat) :
    h.below c = {c} ∪ ⋃ s ∈ h.locals c, h.cellsOf s := by
  ext x
  simp only [Set.mem_union, Set.mem_singleton_iff, Set.mem_iUnion, exists_prop, hwf.mem_locals]
  constructor
  · intro hx
    rcases ReflTransGen.cases_head hx with rfl | ⟨d, ⟨s, hs⟩, hd⟩
    · exact .inl rfl
    · refine .inr ⟨s, ⟨some d, hs⟩, ?_⟩
      rw [cellsOf_some hs]
      exact hd
  · rintro (rfl | ⟨s, ⟨handle, hs⟩, slot, d, hslot, hd, hx⟩)
    · exact mem_below_self
    · rw [hs] at hslot
      cases hslot
      subst hd
      exact below_of_holds ⟨s, hs⟩ hx

/-- The slots of one cell have nothing in common. -/
theorem WellFormed.locals_apart (hwf : WellFormed h) (c : Nat) :
    (h.locals c).Pairwise fun s t =>
      Disjoint (h.slotsOf s) (h.slotsOf t) ∧ Disjoint (h.cellsOf s) (h.cellsOf t) := by
  refine (nodup_locals h c).pairwise_of_forall_ne fun s hs t ht hne => ?_
  obtain ⟨handle, hs⟩ := hwf.mem_locals.mp hs
  obtain ⟨handle', ht⟩ := hwf.mem_locals.mp ht
  -- a slot of `c` is not below what the slots of `c` own
  have hout : ∀ {u v d handle}, h.slots u = some ⟨handle, some c⟩ →
      h.slots v = some ⟨some d, some c⟩ → u ∉ h.inside d := by
    intro u v d handle hu hv hmem
    exact hwf.not_below_of_holds ⟨v, hv⟩ ((mem_inside_iff hu).mp hmem)
  cases handle with
  | none =>
      rw [slotsOf_none hs, cellsOf_none hs, Set.disjoint_singleton_left]
      refine ⟨?_, Set.empty_disjoint _⟩
      cases handle' with
      | none =>
          rw [slotsOf_none ht]
          exact hne
      | some d =>
          rw [slotsOf_some ht]
          exact fun hmem => hmem.elim hne (hout hs ht)
  | some a =>
      rw [slotsOf_some hs, cellsOf_some hs]
      cases handle' with
      | none =>
          rw [slotsOf_none ht, cellsOf_none ht, Set.disjoint_singleton_right]
          exact ⟨fun hmem => hmem.elim (Ne.symm hne) (hout ht hs), Set.disjoint_empty _⟩
      | some b =>
          have hab : a ≠ b := by
            rintro rfl
            exact hne (hwf.unique s t _ _ a hs ht rfl rfl)
          have hcells := hwf.below_disjoint ⟨s, hs⟩ ⟨t, ht⟩ hab
          rw [slotsOf_some ht, cellsOf_some ht]
          refine ⟨Set.disjoint_left.mpr ?_, hcells⟩
          rintro u (rfl | hu) (rfl | hu')
          · exact hne rfl
          · exact hout hs ht hu'
          · exact hout ht hs hu
          · obtain ⟨handle, x, hslot, hx⟩ := mem_inside.mp hu
            exact Set.disjoint_left.mp hcells hx ((mem_inside_iff hslot).mp hu')

theorem Erased.start (he : Erased h P D h₁) (hc : h.Alive c) (hD : c ∉ D) :
    Erased h P (insert c D) { h₁ with destroyed := h₁.destroyed ++ [c] } where
  gone := he.gone
  kept := he.kept
  slotCount_eq := he.slotCount_eq
  cellCount_eq := he.cellCount_eq
  mem_destroyed := by
    intro x
    rw [List.mem_append, he.mem_destroyed, List.mem_singleton, Set.mem_insert_iff]
    tauto
  nodup := by
    have hnot : c ∉ h₁.destroyed := by
      rw [he.mem_destroyed]
      exact not_or.mpr ⟨hc.2, hD⟩
    rw [← List.concat_eq_append]
    exact he.nodup.concat hnot

/-- The end of a cell ends what is below it, and nothing else. -/
theorem WellFormed.destroys (hwf : WellFormed h) (hc : h.Alive c) (fuel : Nat) :
    Destroys h fuel c := by
  induction c using hwf.wellFounded.induction generalizing fuel with
  | _ c ih =>
      intro h₁ P D he hP hD halive hfuel
      have hcD : c ∉ D := fun hmem => Set.disjoint_left.mp hD hmem mem_below_self
      have hle := he.length_le_cellCount hwf halive
      cases fuel with
      | zero => omega
      | succ fuel =>
          have hstart := he.start hc hcD
          have hchildren : ∀ s ∈ h.locals c, ∃ slot, h.slots s = some slot ∧
              ∀ d, slot.handle = some d → Destroys h fuel d := by
            intro s hs
            obtain ⟨handle, hs⟩ := hwf.mem_locals.mp hs
            refine ⟨_, hs, ?_⟩
            rintro d rfl
            exact ih d ⟨s, hs⟩ (hwf.handle_alive s _ d hs rfl) fuel
          have hlocals := he.locals_eq hP
          rw [hwf.inside_eq] at hP ⊢
          rw [hwf.below_eq] at hD ⊢
          simp only [Set.disjoint_union_right, Set.disjoint_iUnion_right] at hP hD
          have hself : ∀ s ∈ h.locals c, Disjoint (insert c D) (h.cellsOf s) := by
            refine fun s hs => Set.disjoint_insert_left.mpr ⟨?_, hD.2 s hs⟩
            obtain ⟨handle, hs⟩ := hwf.mem_locals.mp hs
            rintro ⟨slot, d, hslot, hd, hcd⟩
            rw [hs] at hslot
            cases hslot
            subst hd
            exact hwf.not_below_of_holds ⟨s, hs⟩ hcd
          obtain ⟨h₂, hrun, he₂⟩ := foldlM_releaseWith_spec hwf hchildren (hwf.locals_apart c)
            hstart hP hself (Set.forall_mem_insert.mpr ⟨hc, halive⟩) (by simp; omega)
          refine ⟨h₂, ?_, ?_⟩
          · rw [Heap.destroyWith, if_pos ((he.alive_iff c).mpr ⟨hc, hcD⟩), hlocals]
            exact hrun
          · rwa [Set.insert_union, ← Set.singleton_union, ← Set.union_left_comm] at he₂

theorem WellFormed.destroy (hwf : WellFormed h) (hc : h.Alive c) :
    ∃ h', h.destroy c = some h' ∧ Erased h (h.inside c) (h.below c) h' := by
  have hlt : h.cellCount < h.cellCount + 1 + h.destroyed.length := by omega
  simpa [Heap.destroy] using hwf.destroys hc _ (Erased.refl hwf) (Set.empty_disjoint _)
    (Set.empty_disjoint _) (by simp) hlt

theorem WellFormed.release (hwf : WellFormed h) {slot : Slot} (hs : h.slots s = some slot) :
    ∃ h', h.release s = some h' ∧ Erased h (h.slotsOf s) (h.cellsOf s) h' := by
  obtain ⟨handle, home⟩ := slot
  cases handle with
  | none =>
      refine ⟨h.remove s, by simp [Heap.release, Heap.releaseWith, hs], ?_⟩
      rw [slotsOf_none hs, cellsOf_none hs, ← insert_empty_eq]
      exact (Erased.refl hwf).remove s
  | some d =>
      obtain ⟨h', hrun, he⟩ := hwf.destroy (hwf.handle_alive s _ d hs rfl)
      refine ⟨h'.remove s, by simp [Heap.release, Heap.releaseWith, hs, hrun], ?_⟩
      rw [slotsOf_some hs, cellsOf_some hs]
      exact he.remove s

end Cells

section Invariant

variable {h h' : Heap} {c d s t other : Nat} {handle home : Option Nat} {slot : Slot}

theorem WellFormed.home_kept (ht : t ∉ h.slotsOf s) (hslot : h.slots t = some slot)
    (hhome : slot.home = some c) : c ∉ h.cellsOf s := by
  rintro ⟨owner, d, hs, hd, hc⟩
  exact ht (.inr ⟨owner, d, hs, hd, slot, c, hslot, hhome, hc⟩)

theorem WellFormed.handle_kept (hwf : WellFormed h) (ht : t ∉ h.slotsOf s)
    (hslot : h.slots t = some slot) (hhandle : slot.handle = some c) : c ∉ h.cellsOf s := by
  rintro ⟨owner, d, hs, hd, hc⟩
  rcases ReflTransGen.cases_tail hc with rfl | ⟨y, hy, u, hu⟩
  · exact ht (.inl (hwf.unique t s _ _ _ hslot hs hhandle hd))
  · obtain rfl := hwf.unique t u _ _ c hslot hu hhandle rfl
    exact ht (.inr ⟨owner, d, hs, hd, (mem_inside_iff hu).mpr hy⟩)

theorem Heap.Held.mono (hslots : ∀ t c home, h.slots t = some ⟨some c, home⟩ →
    ∃ t', h'.slots t' = some ⟨some c, home⟩) (hc : h.Held c) : h'.Held c := by
  induction hc with
  | outside hslot =>
      obtain ⟨t', ht'⟩ := hslots _ _ _ hslot
      exact .outside ht'
  | inside _ hslot ih =>
      obtain ⟨t', ht'⟩ := hslots _ _ _ hslot
      exact .inside ih ht'

/-- The end of a slot leaves owners for all cells that have not ended. -/
theorem WellFormed.released (hwf : WellFormed h)
    (he : Erased h (h.slotsOf s) (h.cellsOf s) h') : WellFormed h' := by
  have hkept : ∀ t slot, h'.slots t = some slot → t ∉ h.slotsOf s ∧ h.slots t = some slot := by
    intro t slot hslot
    have ht : t ∉ h.slotsOf s := by
      intro ht
      rw [he.gone t ht] at hslot
      cases hslot
    exact ⟨ht, he.kept t ht ▸ hslot⟩
  have hheld : ∀ c, h.Held c → c ∉ h.cellsOf s → h'.Held c := by
    intro c hc hnot
    have howner : ∀ {t home}, h.slots t = some ⟨some c, home⟩ → t = s → False := by
      rintro t home hslot rfl
      exact hnot ⟨_, c, hslot, rfl, mem_below_self⟩
    induction hc with
    | @outside t c hslot =>
        refine .outside (he.kept t ?_ ▸ hslot)
        rintro (hts | ⟨_, d, _, _, ht⟩)
        · exact howner hslot hts
        · exact not_mem_inside_of_outside hslot ht
    | @inside t c d _ hslot ih =>
        have hd : d ∉ h.cellsOf s := by
          rintro ⟨owner, x, hs, hx, hd⟩
          exact hnot ⟨owner, x, hs, hx, mem_below_of_holds hd ⟨t, hslot⟩⟩
        refine .inside (ih hd ?_) (he.kept t ?_ ▸ hslot)
        · rintro u home hu rfl
          exact hd ⟨_, d, hu, rfl, mem_below_self⟩
        · rintro (hts | ⟨owner, x, hs, hx, ht⟩)
          · exact howner hslot hts
          · exact hd ⟨owner, x, hs, hx, (mem_inside_iff hslot).mp ht⟩
  exact
    { slot_lt := fun t slot ht => he.slotCount_eq ▸ hwf.slot_lt t slot (hkept t slot ht).2
      home_alive := by
        intro t slot c hslot hhome
        obtain ⟨ht, hslot⟩ := hkept t slot hslot
        exact (he.alive_iff c).mpr
          ⟨hwf.home_alive t slot c hslot hhome, WellFormed.home_kept ht hslot hhome⟩
      handle_alive := by
        intro t slot c hslot hhandle
        obtain ⟨ht, hslot⟩ := hkept t slot hslot
        exact (he.alive_iff c).mpr
          ⟨hwf.handle_alive t slot c hslot hhandle, hwf.handle_kept ht hslot hhandle⟩
      unique := fun t u slot slot' c ht hu =>
        hwf.unique t u slot slot' c (hkept t slot ht).2 (hkept u slot' hu).2
      held := by
        intro c hc
        obtain ⟨hc, hnot⟩ := (he.alive_iff c).mp hc
        exact hheld c (hwf.held c hc) hnot
      wellFounded := by
        refine Subrelation.wf ?_ hwf.wellFounded
        rintro d c ⟨t, ht⟩
        exact ⟨t, (hkept t _ ht).2⟩
      destroyed_lt := by
        intro c hc
        rw [he.cellCount_eq]
        rcases (he.mem_destroyed c).mp hc with hc | hc
        · exact hwf.destroyed_lt c hc
        · exact (hwf.cellsOf_alive c hc).1
      nodup := he.nodup }

/-- A slot without a handle can take any free place. -/
theorem WellFormed.put (hwf : WellFormed h) (hs : h.slots s = none) (hlt : s < h.slotCount)
    (hhome : ∀ c, home = some c → h.Alive c) :
    WellFormed { h with slots := Function.update h.slots s (some ⟨none, home⟩) } := by
  have hslots : ∀ t slot, Function.update h.slots s (some ⟨none, home⟩) t = some slot →
      h.slots t = some slot ∨ t = s ∧ slot = ⟨none, home⟩ := by
    intro t slot ht
    by_cases hts : t = s
    · subst hts
      rw [Function.update_self] at ht
      exact .inr ⟨rfl, (Option.some.inj ht).symm⟩
    · rw [Function.update_of_ne hts] at ht
      exact .inl ht
  have hhandle : ∀ t slot c, Function.update h.slots s (some ⟨none, home⟩) t = some slot →
      slot.handle = some c → h.slots t = some slot := by
    intro t slot c ht hc
    rcases hslots t slot ht with ht | ⟨-, rfl⟩
    · exact ht
    · cases hc
  refine
    { slot_lt := ?_, home_alive := ?_, handle_alive := ?_, unique := ?_, held := ?_,
      wellFounded := ?_, destroyed_lt := hwf.destroyed_lt, nodup := hwf.nodup }
  · intro t slot ht
    rcases hslots t slot ht with ht | ⟨rfl, -⟩
    · exact hwf.slot_lt t slot ht
    · exact hlt
  · intro t slot c ht hc
    rcases hslots t slot ht with ht | ⟨-, rfl⟩
    · exact hwf.home_alive t slot c ht hc
    · exact hhome c hc
  · exact fun t slot c ht hc => hwf.handle_alive t slot c (hhandle t slot c ht hc) hc
  · exact fun t u slot slot' c ht hu hc hc' =>
      hwf.unique t u slot slot' c (hhandle t slot c ht hc) (hhandle u slot' c hu hc') hc hc'
  · refine fun c hc => (hwf.held c hc).mono fun t c home' ht => ⟨t, ?_⟩
    refine (Function.update_of_ne ?_ ..).trans ht
    rintro rfl
    rw [hs] at ht
    cases ht
  · refine Subrelation.wf ?_ hwf.wellFounded
    rintro d c ⟨t, ht⟩
    exact ⟨t, hhandle t _ d ht rfl⟩

theorem WellFormed.addSlot (hwf : WellFormed h) (hhome : ∀ c, home = some c → h.Alive c) :
    WellFormed (h.addSlot home) := by
  have hfree : h.slots h.slotCount = none := by
    cases hs : h.slots h.slotCount with
    | none => rfl
    | some slot => exact absurd (hwf.slot_lt _ slot hs) (Nat.lt_irrefl _)
  have hgrown : WellFormed { h with slotCount := h.slotCount + 1 } :=
    { hwf with
      slot_lt := fun t slot ht => (hwf.slot_lt t slot ht).trans (Nat.lt_succ_self _)
      held := fun c hc => Heap.Held.mono (h := h) (fun t _ _ ht => ⟨t, ht⟩) (hwf.held c hc) }
  exact hgrown.put hfree (Nat.lt_succ_self _) hhome

/-- What is left of a slot whose cell has ended. -/
theorem WellFormed.emptied (hwf : WellFormed h) (hs : h.slots s = some ⟨some d, home⟩)
    (he : Erased h (h.inside d) (h.below d) h') :
    WellFormed (h'.setHandle s none) ∧ s ∉ h.inside d := by
  have hout : s ∉ h.inside d := by
    intro hmem
    obtain ⟨handle, c, hslot, hc⟩ := mem_inside.mp hmem
    rw [hs] at hslot
    cases hslot
    exact hwf.not_below_of_holds ⟨s, hs⟩ hc
  have hs' : h'.slots s = some ⟨some d, home⟩ := (he.kept s hout).trans hs
  have hremoved : WellFormed (h'.remove s) := by
    refine hwf.released (s := s) ?_
    rw [slotsOf_some hs, cellsOf_some hs]
    exact he.remove s
  refine ⟨?_, hout⟩
  have hfree : (h'.remove s).slots s = none := Function.update_self ..
  have hlt : s < h'.slotCount := he.slotCount_eq ▸ hwf.slot_lt s _ hs
  have hput : WellFormed { h'.remove s with
      slots := Function.update (h'.remove s).slots s (some ⟨none, home⟩) } := by
    refine hremoved.put hfree hlt ?_
    intro c hhome
    have hslot : h.slots s = some ⟨some d, some c⟩ := hhome ▸ hs
    refine (he.alive_iff c).mpr ⟨hwf.home_alive s _ c hslot rfl, ?_⟩
    exact hwf.not_below_of_holds ⟨s, hslot⟩
  rw [Heap.remove, Function.update_idem] at hput
  rw [Heap.setHandle, hs']
  exact hput

/-- New edges into `g` alone leave a relation well founded when they do at `g`. -/
theorem wellFounded_of_link {r r' : Nat → Nat → Prop} {g : Nat} (hr : WellFounded r)
    (hstep : ∀ d c, r' d c → r d c ∨ d = g) (hg : Acc r' g) : WellFounded r' := by
  refine ⟨fun c => ?_⟩
  induction c using hr.induction with
  | _ c ih =>
      refine ⟨c, fun d hd => ?_⟩
      rcases hstep d c hd with hd | rfl
      · exact ih d hd
      · exact hg

theorem slots_setHandle (hs : h.slots s = some ⟨handle, home⟩) (new : Option Nat) :
    (h.setHandle s new).slots s = some ⟨new, home⟩ ∧
      ∀ t, t ≠ s → (h.setHandle s new).slots t = h.slots t := by
  rw [Heap.setHandle, hs]
  exact ⟨Function.update_self .., fun t ht => Function.update_of_ne ht ..⟩

theorem WellFormed.fill (hwf : WellFormed h) (hs : h.slots s = some ⟨none, home⟩) :
    WellFormed (h.fill s) := by
  obtain ⟨hself, hother⟩ := slots_setHandle hs (some h.cellCount)
  have hfresh : ¬h.Alive h.cellCount := fun hc => Nat.lt_irrefl _ hc.1
  have hslots : ∀ t slot, (h.fill s).slots t = some slot →
      h.slots t = some slot ∨ t = s ∧ slot = ⟨some h.cellCount, home⟩ := by
    intro t slot ht
    by_cases hts : t = s
    · subst hts
      exact .inr ⟨rfl, Option.some.inj (ht.symm.trans hself)⟩
    · exact .inl ((hother t hts).symm.trans ht)
  have halive : ∀ c, (h.fill s).Alive c ↔ h.Alive c ∨ c = h.cellCount := by
    intro c
    constructor
    · rintro ⟨hlt, hc⟩
      exact (Nat.lt_succ_iff_lt_or_eq.mp hlt).imp_left fun hlt => ⟨hlt, hc⟩
    · rintro (⟨hlt, hc⟩ | rfl)
      · exact ⟨hlt.trans (Nat.lt_succ_self _), hc⟩
      · exact ⟨Nat.lt_succ_self _, fun hc => Nat.lt_irrefl _ (hwf.destroyed_lt _ hc)⟩
  have hkept : ∀ t c home', h.slots t = some ⟨some c, home'⟩ →
      (h.fill s).slots t = some ⟨some c, home'⟩ := by
    intro t c home' ht
    refine (hother t ?_).trans ht
    rintro rfl
    rw [hs] at ht
    cases ht
  have hheld : ∀ c, h.Alive c → (h.fill s).Held c :=
    fun c hc => (hwf.held c hc).mono fun t c home' ht => ⟨t, hkept t c home' ht⟩
  refine
    { slot_lt := ?_, home_alive := ?_, handle_alive := ?_, unique := ?_, held := ?_,
      wellFounded := ?_, destroyed_lt := ?_, nodup := hwf.nodup }
  · intro t slot ht
    rcases hslots t slot ht with ht | ⟨rfl, -⟩
    · exact hwf.slot_lt t slot ht
    · exact hwf.slot_lt t _ hs
  · intro t slot c ht hc
    rcases hslots t slot ht with ht | ⟨-, rfl⟩
    · exact (halive c).mpr (.inl (hwf.home_alive t slot c ht hc))
    · exact (halive c).mpr (.inl (hwf.home_alive s _ c hs hc))
  · intro t slot c ht hc
    rcases hslots t slot ht with ht | ⟨-, rfl⟩
    · exact (halive c).mpr (.inl (hwf.handle_alive t slot c ht hc))
    · exact (halive c).mpr (.inr (Option.some.inj hc).symm)
  · intro t u slot slot' c ht hu hc hc'
    rcases hslots t slot ht with ht₁ | ⟨hts, rfl⟩ <;>
      rcases hslots u slot' hu with hu₁ | ⟨hus, rfl⟩
    · exact hwf.unique t u slot slot' c ht₁ hu₁ hc hc'
    · cases hc'
      exact absurd (hwf.handle_alive t slot _ ht₁ hc) hfresh
    · cases hc
      exact absurd (hwf.handle_alive u slot' _ hu₁ hc') hfresh
    · exact hts.trans hus.symm
  · intro c hc
    rcases (halive c).mp hc with hc | rfl
    · exact hheld c hc
    · cases home with
      | none => exact .outside hself
      | some d => exact .inside (hheld d (hwf.home_alive s _ d hs rfl)) hself
  · refine wellFounded_of_link (g := h.cellCount) hwf.wellFounded ?_ ⟨_, ?_⟩
    · rintro d c ⟨t, ht⟩
      rcases hslots t _ ht with ht | ⟨-, heq⟩
      · exact .inl ⟨t, ht⟩
      · cases heq
        exact .inr rfl
    · rintro d ⟨t, ht⟩
      rcases hslots t _ ht with ht | ⟨-, heq⟩
      · exact absurd (hwf.home_alive t _ _ ht rfl) hfresh
      · cases heq
        exact absurd (hwf.home_alive s _ _ hs rfl) hfresh
  · exact fun c hc => (hwf.destroyed_lt c hc).trans (Nat.lt_succ_self _)

end Invariant

section Transfer

variable {h : Heap} {c d g s t other : Nat} {home home' : Option Nat} {slot : Slot}

theorem transfer_none (hs : h.slots s = some ⟨none, home⟩)
    (hother : h.slots other = some ⟨none, home'⟩) : h.transfer s other = h := by
  have hstay : ∀ {t home}, h.slots t = some ⟨none, home⟩ → h.setHandle t none = h := by
    intro t home ht
    rw [Heap.setHandle, ht]
    exact congrArg (fun slots => { h with slots }) (Function.update_eq_self_iff.mpr ht.symm)
  rw [Heap.transfer, hother, Option.bind_some, hstay hs, hstay hother]

/-- The slots after a transfer of the handle `g`. -/
structure Transferred (h : Heap) (s other g : Nat) (home home' : Option Nat) (h' : Heap) :
    Prop where
  target : h'.slots s = some ⟨some g, home⟩
  source : h'.slots other = some ⟨none, home'⟩
  rest : ∀ t, t ≠ s → t ≠ other → h'.slots t = h.slots t

theorem transferred (hs : h.slots s = some ⟨none, home⟩)
    (hother : h.slots other = some ⟨some g, home'⟩) :
    Transferred h s other g home home' (h.transfer s other) := by
  have hne : other ≠ s := by
    rintro rfl
    rw [hs] at hother
    cases hother
  obtain ⟨hself, hrest⟩ := slots_setHandle hs (some g)
  obtain ⟨hself', hrest'⟩ := slots_setHandle ((hrest other hne).trans hother) none
  rw [Heap.transfer, hother, Option.bind_some]
  exact ⟨(hrest' s hne.symm).trans hself, hself', fun t ht ht' =>
    (hrest' t ht').trans (hrest t ht)⟩

theorem Transferred.home_eq {h' : Heap} (hs : h.slots s = some ⟨none, home⟩)
    (hother : h.slots other = some ⟨some g, home'⟩)
    (ht : Transferred h s other g home home' h') (hslot : h'.slots t = some slot) :
    ∃ handle, h.slots t = some ⟨handle, slot.home⟩ := by
  by_cases hts : t = s
  · subst hts
    obtain rfl := Option.some.inj (ht.target.symm.trans hslot)
    exact ⟨none, hs⟩
  · by_cases hto : t = other
    · subst hto
      obtain rfl := Option.some.inj (ht.source.symm.trans hslot)
      exact ⟨some g, hother⟩
    · exact ⟨slot.handle, (ht.rest t hts hto).symm.trans hslot⟩

/-- A handle is where it was, but for `g`. -/
theorem Transferred.handle_cases {h' : Heap} (hwf : WellFormed h)
    (hother : h.slots other = some ⟨some g, home'⟩)
    (ht : Transferred h s other g home home' h') (hslot : h'.slots t = some slot)
    (hhandle : slot.handle = some c) :
    t = s ∧ c = g ∧ slot.home = home ∨ c ≠ g ∧ h.slots t = some slot := by
  by_cases hts : t = s
  · subst hts
    obtain rfl := Option.some.inj (ht.target.symm.trans hslot)
    exact .inl ⟨rfl, (Option.some.inj hhandle).symm, rfl⟩
  · by_cases hto : t = other
    · subst hto
      obtain rfl := Option.some.inj (ht.source.symm.trans hslot)
      cases hhandle
    · rw [ht.rest t hts hto] at hslot
      refine .inr ⟨?_, hslot⟩
      rintro rfl
      exact hto (hwf.unique t other _ _ c hslot hother hhandle rfl)

theorem Transferred.kept {h' : Heap} (hs : h.slots s = some ⟨none, home⟩)
    (hother : h.slots other = some ⟨some g, home'⟩)
    (ht : Transferred h s other g home home' h') (hne : c ≠ g) {home'' : Option Nat}
    (hslot : h.slots t = some ⟨some c, home''⟩) : h'.slots t = some ⟨some c, home''⟩ := by
  refine (ht.rest t ?_ ?_).trans hslot
  · rintro rfl
    rw [hs] at hslot
    cases hslot
  · rintro rfl
    rw [hother] at hslot
    cases hslot
    exact hne rfl

/-- A handle can go anywhere but below its own cell. -/
theorem WellFormed.transfer (hwf : WellFormed h) (hs : h.slots s = some ⟨none, home⟩)
    (hother : h.slots other = some ⟨some g, home'⟩) (hnot : s ∉ h.inside g) :
    WellFormed (h.transfer s other) := by
  have ht := transferred hs hother
  have hg : h.Alive g := hwf.handle_alive other _ g hother rfl
  -- the part of the heap that is not below `g`
  have habove : ∀ c, h.Held c → c ∉ h.below g → (h.transfer s other).Held c := by
    intro c hc hcg
    induction hc with
    | @outside t c hslot =>
        have hne : c ≠ g := fun heq => hcg (heq ▸ mem_below_self)
        exact .outside (ht.kept hs hother hne hslot)
    | @inside t c d _ hslot ih =>
        have hne : c ≠ g := fun heq => hcg (heq ▸ mem_below_self)
        have hd : d ∉ h.below g := fun hd => hcg (mem_below_of_holds hd ⟨t, hslot⟩)
        exact .inside (ih hd) (ht.kept hs hother hne hslot)
  have htop : (h.transfer s other).Held g := by
    cases home with
    | none => exact .outside ht.target
    | some d =>
        have hd : d ∉ h.below g := fun hd => hnot ((mem_inside_iff hs).mpr hd)
        exact .inside (habove d (hwf.held d (hwf.home_alive s _ d hs rfl)) hd) ht.target
  have hbelow : ∀ c, c ∈ h.below g → (h.transfer s other).Held c := by
    intro c hc
    induction hc with
    | refl => exact htop
    | tail hx hstep ih =>
        obtain ⟨t, hslot⟩ := hstep
        refine .inside ih (ht.kept hs hother ?_ hslot)
        rintro rfl
        exact hwf.not_below_of_holds ⟨t, hslot⟩ hx
  refine
    { slot_lt := ?_, home_alive := ?_, handle_alive := ?_, unique := ?_, held := ?_,
      wellFounded := ?_, destroyed_lt := hwf.destroyed_lt, nodup := hwf.nodup }
  · intro t slot hslot
    obtain ⟨handle, hold⟩ := ht.home_eq hs hother hslot
    exact hwf.slot_lt t _ hold
  · intro t slot c hslot hhome
    obtain ⟨handle, hold⟩ := ht.home_eq hs hother hslot
    exact hwf.home_alive t _ c hold hhome
  · intro t slot c hslot hhandle
    rcases ht.handle_cases hwf hother hslot hhandle with ⟨-, rfl, -⟩ | ⟨-, hold⟩
    · exact hg
    · exact hwf.handle_alive t slot c hold hhandle
  · intro t u slot slot' c hslot hslot' hc hc'
    rcases ht.handle_cases hwf hother hslot hc with ⟨hts, hcg, -⟩ | ⟨hcg, hold⟩ <;>
      rcases ht.handle_cases hwf hother hslot' hc' with ⟨hus, hcg', -⟩ | ⟨hcg', hold'⟩
    · exact hts.trans hus.symm
    · exact absurd hcg hcg'
    · exact absurd hcg' hcg
    · exact hwf.unique t u slot slot' c hold hold' hc hc'
  · intro c hc
    by_cases hcg : c ∈ h.below g
    · exact hbelow c hcg
    · exact habove c (hwf.held c hc) hcg
  · refine wellFounded_of_link (g := g) hwf.wellFounded ?_ ?_
    · rintro d c ⟨t, hslot⟩
      rcases ht.handle_cases hwf hother hslot rfl with ⟨-, hd, -⟩ | ⟨-, hold⟩
      · exact .inr hd
      · exact .inl ⟨t, hold⟩
    · have hacc : ∀ c, c ∈ h.below g → Acc (fun d c => (h.transfer s other).Holds c d) c := by
        intro c
        induction c using hwf.wellFounded.induction with
        | _ c ih =>
            intro hc
            refine ⟨c, ?_⟩
            rintro d ⟨t, hslot⟩
            rcases ht.handle_cases hwf hother hslot rfl with ⟨-, -, hhome⟩ | ⟨-, hold⟩
            · subst hhome
              exact absurd ((mem_inside_iff hs).mpr hc) hnot
            · exact ih d ⟨t, hold⟩ (mem_below_of_holds hc ⟨t, hold⟩)
      exact hacc g mem_below_self

/-- Below its own cell, a handle is out of reach. -/
theorem WellFormed.not_held_transfer (hwf : WellFormed h) (hs : h.slots s = some ⟨none, home⟩)
    (hother : h.slots other = some ⟨some g, home'⟩) (hin : s ∈ h.inside g) :
    ¬(h.transfer s other).Held g := by
  have ht := transferred hs hother
  have hout : ∀ c, (h.transfer s other).Held c → c ∉ h.below g := by
    intro c hc
    induction hc with
    | @outside t c hslot =>
        intro hcg
        rcases ht.handle_cases hwf hother hslot rfl with ⟨-, -, hhome⟩ | ⟨hne, hold⟩
        · subst hhome
          exact not_mem_inside_of_outside hs hin
        · rcases ReflTransGen.cases_tail hcg with rfl | ⟨y, -, u, hu⟩
          · exact hne rfl
          · obtain rfl := hwf.unique t u _ _ c hold hu rfl rfl
            rw [hold] at hu
            cases hu
    | @inside t c d _ hslot ih =>
        intro hcg
        rcases ht.handle_cases hwf hother hslot rfl with ⟨-, -, hhome⟩ | ⟨hne, hold⟩
        · subst hhome
          exact ih ((mem_inside_iff hs).mp hin)
        · rcases ReflTransGen.cases_tail hcg with rfl | ⟨y, hy, hstep⟩
          · exact hne rfl
          · obtain rfl := hwf.holder_unique ⟨t, hold⟩ hstep
            exact ih hy
  exact fun hg => hout g hg mem_below_self

end Transfer

section Reset

variable {h h' : Heap} {c d g s t other : Nat} {handle home home' : Option Nat} {slot : Slot}

theorem below_mono (hholds : ∀ c d, h'.Holds c d → h.Holds c d) : h'.below g ⊆ h.below g :=
  fun _ hx => ReflTransGen.mono hholds _ _ hx

theorem holds_addSlot (hwf : WellFormed h) :
    (h.addSlot home).Holds c d ↔ h.Holds c d := by
  refine exists_congr fun s => ?_
  by_cases hs : s = h.slotCount
  · subst hs
    have hnew : (h.addSlot home).slots h.slotCount = some ⟨none, home⟩ := Function.update_self ..
    rw [hnew]
    refine iff_of_false (by simp) fun hold => ?_
    exact Nat.lt_irrefl _ (hwf.slot_lt _ _ hold)
  · have hold : (h.addSlot home).slots s = h.slots s := Function.update_of_ne hs ..
    rw [hold]

theorem below_addSlot (hwf : WellFormed h) : (h.addSlot home).below g = h.below g :=
  Set.Subset.antisymm (below_mono fun _ _ => (holds_addSlot hwf).mp)
    (below_mono fun _ _ => (holds_addSlot hwf).mpr)

theorem slots_addSlot (hwf : WellFormed h) (home : Option Nat) (hs : h.slots s = some slot) :
    (h.addSlot home).slots s = some slot := by
  refine (Function.update_of_ne ?_ ..).trans hs
  rintro rfl
  exact Nat.lt_irrefl _ (hwf.slot_lt _ _ hs)

/-- `h'` is `h` after the end of the cell of the slot `s`, which still has the handle. -/
structure Reset (h : Heap) (s : Nat) (handle home : Option Nat) (h' : Heap) : Prop where
  wellFormed : WellFormed (h'.setHandle s none)
  slot_eq : h'.slots s = some ⟨handle, home⟩
  gone : ∀ d, handle = some d → ∀ t ∈ h.inside d, h'.slots t = none
  kept : ∀ t, (∀ d, handle = some d → t ∉ h.inside d) → h'.slots t = h.slots t
  alive_iff : ∀ c, h'.Alive c ↔ h.Alive c ∧ c ∉ h.cellsOf s

theorem WellFormed.reset (hwf : WellFormed h) (hs : h.slots s = some ⟨handle, home⟩) :
    ∃ h', handle.elim (some h) h.destroy = some h' ∧ Reset h s handle home h' := by
  cases handle with
  | none =>
      have hstay : h.setHandle s none = h := by
        rw [Heap.setHandle, hs]
        exact congrArg (fun slots => { h with slots }) (Function.update_eq_self_iff.mpr hs.symm)
      refine ⟨h, rfl, ?_, hs, ?_, fun _ _ => rfl, fun c => ?_⟩
      · rwa [hstay]
      · rintro d ⟨⟩
      · simp [cellsOf_none hs]
  | some d =>
      obtain ⟨h', hrun, he⟩ := hwf.destroy (hwf.handle_alive s _ d hs rfl)
      obtain ⟨hwf', hout⟩ := hwf.emptied hs he
      refine ⟨h', hrun, hwf', (he.kept s hout).trans hs, ?_, ?_, fun c => ?_⟩
      · rintro _ ⟨⟩ t ht
        exact he.gone t ht
      · exact fun t ht => he.kept t (ht d rfl)
      · rw [cellsOf_some hs]
        exact he.alive_iff c

/-- What is left of the owners has not changed. -/
theorem Reset.holds_old (hr : Reset h s handle home h') (hholds : (h'.setHandle s none).Holds c d) :
    h.Holds c d := by
  obtain ⟨t, ht⟩ := hholds
  obtain ⟨hself, hrest⟩ := slots_setHandle hr.slot_eq none
  have hts : t ≠ s := by
    rintro rfl
    rw [hself] at ht
    cases ht
  rw [hrest t hts] at ht
  refine ⟨t, (hr.kept t ?_).symm.trans ht⟩
  intro d hd hmem
  rw [hr.gone d hd t hmem] at ht
  cases ht

/-- Nothing above the slot `s` ends with its cell. -/
theorem Reset.below_kept (hwf : WellFormed h) (hs : h.slots s = some ⟨handle, some c⟩)
    (hr : Reset h s handle (some c) h') (hc : c ∈ h.below g) :
    c ∈ (h'.setHandle s none).below g := by
  obtain ⟨-, hrest⟩ := slots_setHandle hr.slot_eq none
  have hout : ∀ d, handle = some d → c ∉ h.below d := by
    rintro d rfl
    exact hwf.not_below_of_holds ⟨s, hs⟩
  have hpath : ∀ x, x ∈ h.below g → (∀ d, handle = some d → x ∉ h.below d) →
      x ∈ (h'.setHandle s none).below g := by
    intro x hx
    induction hx with
    | refl => exact fun _ => mem_below_self
    | @tail y x hy hstep ih =>
        intro hnot
        have hy' : ∀ d, handle = some d → y ∉ h.below d :=
          fun d hd hmem => hnot d hd (mem_below_of_holds hmem hstep)
        obtain ⟨t, ht⟩ := hstep
        refine mem_below_of_holds (ih hy') ⟨t, ?_⟩
        have hts : t ≠ s := by
          rintro rfl
          rw [hs] at ht
          cases ht
          exact hnot x rfl mem_below_self
        rw [hrest t hts, hr.kept t fun d hd hmem => hy' d hd ((mem_inside_iff ht).mp hmem)]
        exact ht
  exact hpath c hc hout

theorem transfer_setHandle (hne : other ≠ s) (hs : h.slots s = some ⟨handle, home⟩) :
    (h.setHandle s none).transfer s other = h.transfer s other := by
  obtain ⟨hself, hrest⟩ := slots_setHandle hs none
  have htwice : ∀ new, (h.setHandle s none).setHandle s new = h.setHandle s new := by
    intro new
    rw [Heap.setHandle, hself]
    simp only [Heap.setHandle, hs, Option.map_some, Function.update_idem]
  rw [Heap.transfer, Heap.transfer, hrest other hne, htwice]

end Reset

section Ends

variable {h : Heap}

theorem Heap.Held.exists_outside {c : Nat} (hc : h.Held c) :
    ∃ s slot, h.slots s = some slot ∧ slot.home = none := by
  induction hc with
  | outside hslot => exact ⟨_, _, hslot, rfl⟩
  | inside _ _ ih => exact ih

/-- With the last slot outside of the cells, every cell has ended, and each of them once. -/
theorem WellFormed.all_ended (hwf : WellFormed h)
    (hnone : ∀ s slot, h.slots s = some slot → slot.home ≠ none) :
    (∀ s, h.slots s = none) ∧ h.destroyed.Perm (List.range h.cellCount) := by
  have hdead : ∀ c, ¬h.Alive c := by
    intro c hc
    obtain ⟨s, slot, hs, hhome⟩ := (hwf.held c hc).exists_outside
    exact hnone s slot hs hhome
  constructor
  · intro s
    cases hs : h.slots s with
    | none => rfl
    | some slot =>
        cases hhome : slot.home with
        | none => exact absurd hhome (hnone s slot hs)
        | some c => exact absurd (hwf.home_alive s slot c hs hhome) (hdead c)
  · refine (List.perm_ext_iff_of_nodup hwf.nodup List.nodup_range).mpr fun c => ?_
    rw [List.mem_range]
    exact ⟨hwf.destroyed_lt c, fun hlt => by_contra fun hc => hdead c ⟨hlt, hc⟩⟩

theorem wellFormed_empty : WellFormed Heap.empty where
  slot_lt := by simp [Heap.empty]
  home_alive := by simp [Heap.empty]
  handle_alive := by simp [Heap.empty]
  unique := by simp [Heap.empty]
  held := fun c hc => absurd hc.1 (Nat.not_lt_zero c)
  wellFounded := ⟨fun c => ⟨c, fun d ⟨_, hs⟩ => by cases hs⟩⟩
  destroyed_lt := by simp [Heap.empty]
  nodup := List.nodup_nil

end Ends

end SkUtils.Library.OwnedCells
