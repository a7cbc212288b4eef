import Mathlib.Data.List.Induction
import SkUtils.Containers.UnionFindConnectivity
import SkUtils.Containers.UnionFindSetMap

/-!
The generic `UnionFindSet<T>` computes the classes of the pairs that it has connected,
and agrees with `UnionFindSet<int>` on them.
-/

namespace SkUtils.Containers.UnionFindClasses

open Relation
open SkUtils.Library.ParentForest
open SkUtils.Containers.UnionFindSetMap

variable {T : Type}

section History

def Adds : Operation T → T → Prop
  | .add val, k => k = val
  | .addPair key val, k => k = key ∨ k = val
  | _, _ => False

/-- The pair that a call connects. `connect` throws unless both keys have been added. -/
def Connects (added : T → Prop) : Operation T → T → T → Prop
  | .addPair key val, a, b => a = key ∧ b = val
  | .connect key1 key2, a, b => (added key1 ∧ added key2) ∧ a = key1 ∧ b = key2
  | _, _, _ => False

def Added (ops : List (Operation T)) (k : T) : Prop :=
  ∃ op ∈ ops, Adds op k

def Connected (ops : List (Operation T)) (a b : T) : Prop :=
  ∃ before op after, ops = before ++ op :: after ∧ Connects (Added before) op a b

theorem added_snoc (ops : List (Operation T)) (op : Operation T) (k : T) :
    Added (ops ++ [op]) k ↔ Added ops k ∨ Adds op k := by
  simp [Added, or_and_right, exists_or]

theorem connected_snoc (ops : List (Operation T)) (op : Operation T) (a b : T) :
    Connected (ops ++ [op]) a b ↔ Connected ops a b ∨ Connects (Added ops) op a b := by
  constructor
  · rintro ⟨before, op', after, hops, hconnects⟩
    rcases List.eq_nil_or_concat after with rfl | ⟨after, last, rfl⟩
    · obtain ⟨rfl, hop⟩ := List.append_inj' hops rfl
      obtain rfl : op = op' := by simpa using hop
      exact .inr hconnects
    · rw [List.concat_eq_append, ← List.cons_append, ← List.append_assoc] at hops
      obtain ⟨rfl, -⟩ := List.append_inj' hops rfl
      exact .inl ⟨before, op', after, rfl, hconnects⟩
  · rintro (⟨before, op', after, rfl, hconnects⟩ | hconnects)
    · exact ⟨before, op', after ++ [op], by simp, hconnects⟩
    · exact ⟨ops, op, [], rfl, hconnects⟩

end History

section Runs

variable [LinearOrder T] {s : UnionFindSet T} {rel : T → T → Prop}

theorem invariant_perform (h : Invariant s rel) (op : Operation T) :
    Invariant (exec (perform op) s).2
        (fun a b => rel a b ∨ Connects (fun k => k ∈ s.parent) op a b) ∧
      KeysAdded s (exec (perform op) s).2 (Adds op) := by
  cases op with
  | add val =>
      obtain ⟨s', hexec, hs', hkeys⟩ := h.add val
      rw [perform, hexec]
      exact ⟨hs'.congr fun a b => (or_iff_left id).symm, hkeys⟩
  | addPair key val =>
      obtain ⟨s₁, hexec₁, h₁, hkeys₁⟩ := h.add key
      obtain ⟨s₂, hexec₂, h₂, hkeys₂⟩ := h₁.add val
      have hkey : key ∈ s₂.parent := (hkeys₂ key).mpr (.inl ((hkeys₁ key).mpr (.inr rfl)))
      obtain ⟨s₃, hexec₃, h₃, hkeys₃⟩ := h₂.connect hkey ((hkeys₂ val).mpr (.inr rfl))
      rw [perform, exec_addPair, exec_bind_ok hexec₁, exec_bind_ok hexec₂, hexec₃]
      refine ⟨h₃, fun k => ?_⟩
      rw [hkeys₃ k, or_iff_left id, hkeys₂ k, hkeys₁ k, or_assoc]
      rfl
  | connect key1 key2 =>
      rw [perform]
      by_cases hboth : key1 ∈ s.parent ∧ key2 ∈ s.parent
      · obtain ⟨s', hexec, hs', hkeys⟩ := h.connect hboth.1 hboth.2
        rw [hexec]
        refine ⟨hs'.congr fun a b => ?_, hkeys⟩
        simp [join, Connects, hboth]
      · obtain ⟨key, -, hexec⟩ := h.connect_notMem (not_and_or.mp hboth)
        rw [hexec]
        refine ⟨h.congr fun a b => ?_, fun k => (or_iff_left id).symm⟩
        simp [Connects, hboth]
  | find key =>
      have hsame : (exec (perform (.find key)) s).2 = s := by
        rw [perform]
        by_cases hkey : key ∈ s.parent
        · obtain ⟨r, hexec, -⟩ := h.find hkey
          rw [exec_bind_ok hexec]
          rfl
        · rw [exec_bind_error (find_notMem hkey)]
      rw [hsame]
      exact ⟨h.congr fun a b => (or_iff_left id).symm, fun k => (or_iff_left id).symm⟩

theorem run_snoc (ops : List (Operation T)) (op : Operation T) :
    run (ops ++ [op]) = (exec (perform op) (run ops)).2 := by
  simp [run]

theorem run_spec (ops : List (Operation T)) :
    Invariant (run ops) (Connected ops) ∧ ∀ k, k ∈ (run ops).parent ↔ Added ops k := by
  induction ops using List.reverseRecOn with
  | nil =>
      refine ⟨invariant_empty.congr fun a b => ?_, fun k => ?_⟩
      · simp [Connected]
      · simp [Added, run, empty]
  | append_singleton ops op ih =>
      obtain ⟨hinv, hkeys⟩ := ih
      obtain ⟨hinv', hkeys'⟩ := invariant_perform hinv op
      rw [run_snoc]
      refine ⟨hinv'.congr fun a b => ?_, fun k => ?_⟩
      · simp only [hkeys]
        exact (connected_snoc ops op a b).symm
      · rw [hkeys', hkeys, added_snoc]

theorem cnt_run (ops : List (Operation T)) :
    (run ops).cnt = Nat.card (Quotient ((EqvGen.setoid (Connected ops)).comap
      (Subtype.val : {k | Added ops k} → T))) := by
  obtain ⟨hinv, hkeys⟩ := run_spec ops
  have hroots : ∀ k r, k ∈ {k | Added ops k} → RootOf (parentFn (run ops).parent) k r →
      r ∈ {k | Added ops k} :=
    fun k r hk hr => (hkeys r).mp (hinv.root_mem ((hkeys k).mpr hk) hr)
  rw [← hinv.represents.card_roots_in hroots, hinv.cnt]
  simp only [hkeys, Set.mem_ofPred_eq]

theorem find_run (ops : List (Operation T)) {a b : T} (ha : Added ops a) (hb : Added ops b) :
    ∃ ra rb, exec (find a) (run ops) = (.ok ra, run ops) ∧
      exec (find b) (run ops) = (.ok rb, run ops) ∧ (ra = rb ↔ EqvGen (Connected ops) a b) := by
  obtain ⟨hinv, hkeys⟩ := run_spec ops
  obtain ⟨ra, hfind, hra⟩ := hinv.find ((hkeys a).mpr ha)
  obtain ⟨rb, hfind', hrb⟩ := hinv.find ((hkeys b).mpr hb)
  exact ⟨ra, rb, hfind, hfind', hinv.represents.root_eq_iff hra hrb⟩

end Runs

section Agreement

variable {n : Nat}

/-- The keys of `0..n-1` are added, and then pairs of them connected. -/
def addThenConnect (key : Fin n ↪ T) (pairs : List (Fin n × Fin n)) : List (Operation T) :=
  (List.finRange n).map (fun i => .add (key i)) ++
    pairs.map fun p => .connect (key p.1) (key p.2)

def connects (pairs : List (Fin n × Fin n)) : List (UnionFindSetInt.Operation n) :=
  pairs.map fun p => .connect p.1 p.2

theorem added_addThenConnect (key : Fin n ↪ T) (pairs : List (Fin n × Fin n)) (k : T) :
    Added (addThenConnect key pairs) k ↔ ∃ i, k = key i := by
  simp [Added, addThenConnect, or_and_right, exists_or, Adds]

theorem connected_connects (pairs : List (Fin n × Fin n)) (i j : Fin n) :
    UnionFindConnectivity.connected (connects pairs) i j ↔ (i, j) ∈ pairs := by
  simp [UnionFindConnectivity.connected, connects]

theorem not_connected_adds (key : Fin n ↪ T) (a b : T) :
    ¬ Connected (addThenConnect key []) a b := by
  rintro ⟨before, op, after, hops, hconnects⟩
  have hmem : op ∈ addThenConnect key [] := by simp [hops]
  obtain ⟨i, -, rfl⟩ : ∃ i, i ∈ List.finRange n ∧ .add (key i) = op := by
    simpa [addThenConnect] using hmem
  exact hconnects

theorem connected_addThenConnect (key : Fin n ↪ T) (pairs : List (Fin n × Fin n)) (a b : T) :
    Connected (addThenConnect key pairs) a b ↔
      Relation.Map (UnionFindConnectivity.connected (connects pairs)) key key a b := by
  simp only [Relation.map_apply, connected_connects]
  induction pairs using List.reverseRecOn with
  | nil => simp [not_connected_adds]
  | append_singleton pairs p ih =>
      have hsnoc : addThenConnect key (pairs ++ [p]) =
          addThenConnect key pairs ++ [.connect (key p.1) (key p.2)] := by
        simp [addThenConnect]
      rw [hsnoc, connected_snoc, ih]
      simp only [Connects, added_addThenConnect, List.mem_append, List.mem_singleton]
      constructor
      · rintro (⟨i, j, hij, rfl, rfl⟩ | ⟨-, rfl, rfl⟩)
        · exact ⟨i, j, .inl hij, rfl, rfl⟩
        · exact ⟨p.1, p.2, .inr rfl, rfl, rfl⟩
      · rintro ⟨i, j, hij | rfl, rfl, rfl⟩
        · exact .inl ⟨i, j, hij, rfl, rfl⟩
        · exact .inr ⟨⟨⟨i, rfl⟩, ⟨j, rfl⟩⟩, rfl, rfl⟩

variable [LinearOrder T]

/-- The same connects give the same answers and the same count in `UnionFindSet<int>`. -/
def AgreesWithInt (key : Fin n ↪ T) (pairs : List (Fin n × Fin n)) : Prop :=
  ∃ s, UnionFindSetInt.run (connects pairs) = some s ∧
    s.cnt = (run (addThenConnect key pairs)).cnt ∧
    ∀ i j, ∃ s' result ri rj, s.isConnected i j = some (s', result) ∧
      exec (find (key i)) (run (addThenConnect key pairs)) =
        (.ok ri, run (addThenConnect key pairs)) ∧
      exec (find (key j)) (run (addThenConnect key pairs)) =
        (.ok rj, run (addThenConnect key pairs)) ∧
      (result = true ↔ ri = rj)

theorem agreesWithInt (key : Fin n ↪ T) (pairs : List (Fin n × Fin n)) :
    AgreesWithInt key pairs := by
  obtain ⟨s, hrun, hs⟩ := UnionFindConnectivity.run_spec (connects pairs)
  have hadded : ∀ i, Added (addThenConnect key pairs) (key i) :=
    fun i => (added_addThenConnect key pairs _).mpr ⟨i, rfl⟩
  have hconnected : Connected (addThenConnect key pairs) =
      Relation.Map (UnionFindConnectivity.connected (connects pairs)) key key :=
    funext fun a => funext fun b => propext (connected_addThenConnect key pairs a b)
  have hrelated : ∀ i j, EqvGen (Connected (addThenConnect key pairs)) (key i) (key j) ↔
      EqvGen (UnionFindConnectivity.connected (connects pairs)) i j := by
    intro i j
    rw [hconnected]
    exact eqvGen_map_iff key
  refine ⟨s, hrun, ?_, fun i j => ?_⟩
  · let keyOf : Fin n → {k | Added (addThenConnect key pairs) k} := fun i => ⟨key i, hadded i⟩
    have hbijective : Function.Bijective keyOf := by
      refine ⟨fun i j hij => key.injective (congrArg Subtype.val hij), fun k => ?_⟩
      obtain ⟨i, hi⟩ := (added_addThenConnect key pairs k).mp k.2
      exact ⟨i, Subtype.ext hi.symm⟩
    rw [hs.cnt, hs.represents.card_roots, cnt_run]
    exact congrArg Nat.cast (Nat.card_congr
      (Quotient.congr (Equiv.ofBijective keyOf hbijective) fun i j => (hrelated i j).symm))
  · obtain ⟨s', result, hresult, -, hiff⟩ := hs.isConnected i j
    obtain ⟨ri, rj, hfind, hfind', hroots⟩ := find_run _ (hadded i) (hadded j)
    exact ⟨s', result, ri, rj, hresult, hfind, hfind',
      hiff.trans ((hrelated i j).symm.trans hroots.symm)⟩

end Agreement

/-- Any calls on a default-constructed set, their exceptions caught: its forest stands on
the added keys, `find` tells the classes of the connected pairs apart, `count` is the
number of classes, a call with another key throws and changes nothing, and
`UnionFindSet<int>` agrees on the same connects. -/
theorem find_eq_iff_connected [LinearOrder T] (ops : List (Operation T)) :
    (∀ k, k ∈ (run ops).parent ↔ Added ops k) ∧
    (∀ k, k ∈ (run ops).parent → parentFn (run ops).parent k ∈ (run ops).parent) ∧
    Forest (parentFn (run ops).parent) ∧
    (∀ a b, Added ops a → Added ops b →
      ∃ ra rb, exec (find a) (run ops) = (.ok ra, run ops) ∧
        exec (find b) (run ops) = (.ok rb, run ops) ∧
        (ra = rb ↔ EqvGen (Connected ops) a b)) ∧
    (run ops).cnt = Nat.card (Quotient ((EqvGen.setoid (Connected ops)).comap
      (Subtype.val : {k | Added ops k} → T))) ∧
    (∀ k, ¬ Added ops k → exec (find k) (run ops) = (.error (.outOfRange k), run ops)) ∧
    (∀ a b, ¬ Added ops a ∨ ¬ Added ops b →
      ∃ k, ¬ Added ops k ∧ exec (connect a b) (run ops) = (.error (.outOfRange k), run ops)) ∧
    ∀ (n : Nat) (key : Fin n ↪ T) (pairs : List (Fin n × Fin n)), AgreesWithInt key pairs := by
  obtain ⟨hinv, hkeys⟩ := run_spec ops
  refine ⟨hkeys, hinv.closed, hinv.represents.forest, fun a b => find_run ops, cnt_run ops,
    fun k hk => find_notMem fun hmem => hk ((hkeys k).mp hmem), fun a b hab => ?_,
    fun n => agreesWithInt⟩
  simp only [← hkeys] at hab ⊢
  exact hinv.connect_notMem hab

end SkUtils.Containers.UnionFindClasses
