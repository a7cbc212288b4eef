import Mathlib.Data.List.Induction
import SkUtils.Containers.UnionFindSetInt

/-!
`UnionFindSet<int>` computes the connectivity of the pairs passed to `connect`: after
any calls its trees are the classes, and `cnt` is the number of classes.
-/

namespace SkUtils.Containers.UnionFindConnectivity

open Relation
open SkUtils.Library.ParentForest
open SkUtils.Containers.UnionFindSetInt

variable {n : Nat}

def connected (ops : List (Operation n)) : Fin n → Fin n → Prop :=
  fun a b => .connect a b ∈ ops

/-- The trees of `s` are the classes of `rel`, and `cnt` counts the roots. -/
structure Invariant (s : UnionFindSet n) (rel : Fin n → Fin n → Prop) : Prop where
  represents : Represents (parentFn s.parent) rel
  cnt : s.cnt = Nat.card {r // IsRoot (parentFn s.parent) r}

section Steps

variable {s s' : UnionFindSet n} {rel : Fin n → Fin n → Prop}

theorem invariant_ofSize : Invariant (ofSize n) fun _ _ => False := by
  have hid : parentFn (ofSize n).parent = id := by
    funext i
    simp [parentFn, ofSize]
  constructor
  · rw [hid]
    exact represents_id
  · have hall : ∀ r : Fin n, IsRoot id r := fun _ => rfl
    rw [hid, Nat.card_congr (Equiv.subtypeUnivEquiv hall), Nat.card_fin]
    rfl

theorem Invariant.congr {rel' : Fin n → Fin n → Prop} (h : Invariant s rel)
    (hrel : ∀ a b, rel a b ↔ rel' a b) : Invariant s rel' := by
  obtain rfl : rel = rel' := funext fun a => funext fun b => propext (hrel a b)
  exact h

theorem Invariant.compressed (h : Invariant s rel) (hs : Compressed s s') :
    Invariant s' rel where
  represents := h.represents.compress hs.parent
  cnt := by
    rw [hs.cnt, h.cnt]
    simp only [hs.parent.isRoot_iff]

theorem Invariant.find_find (h : Invariant s rel) (a b : Fin n) :
    ∃ s₁ s₂ ra rb, s.find a = some (s₁, ra) ∧ s₁.find b = some (s₂, rb) ∧
      Compressed s s₂ ∧ RootOf (parentFn s₂.parent) a ra ∧
      RootOf (parentFn s₂.parent) b rb := by
  obtain ⟨ra, hra⟩ := h.represents.forest a
  obtain ⟨s₁, hfind, hs₁⟩ := find_spec h.represents.forest hra
  have h₁ := h.compressed hs₁
  obtain ⟨rb, hrb⟩ := h₁.represents.forest b
  obtain ⟨s₂, hfind', hs₂⟩ := find_spec h₁.represents.forest hrb
  refine ⟨s₁, s₂, ra, rb, hfind, hfind', hs₁.trans hs₂, ?_, ?_⟩
  · exact ((hs₁.trans hs₂).parent.rootOf_iff a ra).mpr hra
  · exact (hs₂.parent.rootOf_iff b rb).mpr hrb

theorem Invariant.connect (h : Invariant s rel) (a b : Fin n) :
    ∃ s', s.connect a b = some s' ∧ Invariant s' (join rel a b) := by
  obtain ⟨s₁, s₂, ra, rb, hfind, hfind', hs, ha, hb⟩ := h.find_find a b
  have h₂ := h.compressed hs
  rcases eq_or_ne ra rb with rfl | hne
  · refine ⟨s₂, by simp [UnionFindSet.connect, hfind, hfind'], ?_⟩
    exact ⟨h₂.represents.join_same ha hb, h₂.cnt⟩
  · refine ⟨{ parent := s₂.parent.set rb ra, cnt := s₂.cnt - 1 }, ?_, ?_, ?_⟩
    · simp [UnionFindSet.connect, hfind, hfind', hne]
    · rw [parentFn_set]
      exact h₂.represents.join_link ha hb hne
    · have hcard := card_roots_link hb.isRoot hne
      change s₂.cnt - 1 = _
      rw [parentFn_set, h₂.cnt]
      omega

theorem Invariant.isConnected (h : Invariant s rel) (a b : Fin n) :
    ∃ s' result, s.isConnected a b = some (s', result) ∧ Compressed s s' ∧
      (result = true ↔ EqvGen rel a b) := by
  obtain ⟨s₁, s₂, ra, rb, hfind, hfind', hs, ha, hb⟩ := h.find_find a b
  refine ⟨s₂, decide (ra = rb), by simp [UnionFindSet.isConnected, hfind, hfind'], hs, ?_⟩
  rw [decide_eq_true_iff]
  exact (h.compressed hs).represents.root_eq_iff ha hb

def relAfter (rel : Fin n → Fin n → Prop) : Operation n → Fin n → Fin n → Prop
  | .connect a b => join rel a b
  | _ => rel

theorem Invariant.apply (h : Invariant s rel) (op : Operation n) :
    ∃ s', apply s op = some s' ∧ Invariant s' (relAfter rel op) := by
  cases op with
  | connect a b => exact h.connect a b
  | find a =>
      obtain ⟨r, hr⟩ := h.represents.forest a
      obtain ⟨s', hfind, hs⟩ := find_spec h.represents.forest hr
      exact ⟨s', by simp [UnionFindSetInt.apply, hfind], h.compressed hs⟩
  | isConnected a b =>
      obtain ⟨s', result, hresult, hs, _⟩ := h.isConnected a b
      exact ⟨s', by simp [UnionFindSetInt.apply, hresult], h.compressed hs⟩
  | normalize =>
      obtain ⟨s', hrun, hs, _⟩ := normalize_spec h.represents.forest
      exact ⟨s', hrun, h.compressed hs⟩

end Steps

theorem connected_snoc (ops : List (Operation n)) (op : Operation n) :
    connected (ops ++ [op]) = relAfter (connected ops) op := by
  funext a b
  cases op <;> simp [connected, relAfter, join]

theorem run_spec (ops : List (Operation n)) :
    ∃ s, run ops = some s ∧ Invariant s (connected ops) := by
  induction ops using List.reverseRecOn with
  | nil =>
      have hnone : connected ([] : List (Operation n)) = fun _ _ => False := by
        funext a b
        simp [connected]
      exact ⟨ofSize n, rfl, hnone ▸ invariant_ofSize⟩
  | append_singleton ops op ih =>
      obtain ⟨s, hrun, hs⟩ := ih
      obtain ⟨s', hstep, hs'⟩ := hs.apply op
      refine ⟨s', ?_, connected_snoc ops op ▸ hs'⟩
      rw [run] at hrun ⊢
      simp [hrun, hstep]

/-- `UnionFindSet(n)` after any calls. -/
theorem connectivity (ops : List (Operation n)) :
    ∃ s, run ops = some s ∧ Forest (parentFn s.parent) ∧
      (∀ a, ∃ s' r, s.find a = some (s', r) ∧ RootOf (parentFn s.parent) a r ∧
        Compressed s s') ∧
      (∀ a b, ∃ s₁ s₂ ra rb, s.find a = some (s₁, ra) ∧ s₁.find b = some (s₂, rb) ∧
        (ra = rb ↔ EqvGen (connected ops) a b)) ∧
      (∀ a b, ∃ s' result, s.isConnected a b = some (s', result) ∧
        (result = true ↔ EqvGen (connected ops) a b)) ∧
      s.cnt = Nat.card (Quotient (EqvGen.setoid (connected ops))) ∧
      ∃ s', s.normalize = some s' ∧ Compressed s s' ∧
        ∀ i, IsRoot (parentFn s'.parent) (parentFn s'.parent i) := by
  obtain ⟨s, hrun, hs⟩ := run_spec ops
  refine ⟨s, hrun, hs.represents.forest, ?_, ?_, ?_, ?_, normalize_spec hs.represents.forest⟩
  · intro a
    obtain ⟨r, hr⟩ := hs.represents.forest a
    obtain ⟨s', hfind, hcompress⟩ := find_spec hs.represents.forest hr
    exact ⟨s', r, hfind, hr, hcompress⟩
  · intro a b
    obtain ⟨s₁, s₂, ra, rb, hfind, hfind', hcompress, ha, hb⟩ := hs.find_find a b
    exact ⟨s₁, s₂, ra, rb, hfind, hfind',
      (hs.compressed hcompress).represents.root_eq_iff ha hb⟩
  · intro a b
    obtain ⟨s', result, hresult, _, hiff⟩ := hs.isConnected a b
    exact ⟨s', result, hresult, hiff⟩
  · rw [hs.cnt, hs.represents.card_roots]

end SkUtils.Containers.UnionFindConnectivity
