import Mathlib.Data.Finmap
import SkUtils.Containers.SkipListTowers

/-!
A skip list is a finite map: every call has the result of the same call on a map, which
knows nothing of levels.
-/

namespace SkUtils.Containers.SkipListMap

open SkUtils.Library.CheckedLoop
open SkUtils.Containers.SkipListOperations
open SkUtils.Containers.SkipListTowers

variable {K V : Type} [LinearOrder K]

abbrev FiniteMap (K V : Type) :=
  Finmap fun _ : K => V

/-- A call on the map: the map after it, and the result. -/
def reference (m : FiniteMap K V) : Call K V → FiniteMap K V × Result K V
  | .insert key val =>
      if key ∈ m then (m, .done false) else (m.insert key val, .done true)
  | .erase key =>
      if key ∈ m then (m.erase key, .done true) else (m, .done false)
  | .find key => (m, .found ((m.lookup key).map fun val => (key, val)))
  | .get key =>
      (m, .value (match m.lookup key with
        | some val => .ok val
        | none => .error "Unexists Key"))
  | .size => (m, .size m.keys.card)

def referenceRun (m : FiniteMap K V) :
    List (Call K V) → FiniteMap K V × List (Result K V)
  | [] => (m, [])
  | call :: calls =>
      let (m, result) := reference m call
      let (m, results) := referenceRun m calls
      (m, result :: results)

/-- The nodes hold the pairs of the map. -/
def Holds (es : List (Entry K V)) (m : FiniteMap K V) : Prop :=
  ∀ key val, m.lookup key = some val ↔ ∃ e ∈ es, e.key = key ∧ e.val = val

def Refines (s : SkipList K V) (m : FiniteMap K V) : Prop :=
  ∃ es, Represents s es ∧ Holds es m

section Holds

variable {es ds bs : List (Entry K V)} {m : FiniteMap K V} {key : K}

theorem Holds.mem_iff (h : Holds es m) : key ∈ m ↔ ∃ e ∈ es, e.key = key := by
  rw [Finmap.mem_iff]
  constructor
  · rintro ⟨val, hval⟩
    obtain ⟨e, he, hkey, _⟩ := (h key val).mp hval
    exact ⟨e, he, hkey⟩
  · rintro ⟨e, he, rfl⟩
    exact ⟨e.val, (h e.key e.val).mpr ⟨e, he, rfl, rfl⟩⟩

theorem Holds.not_mem (h : Holds (ds ++ bs) m) (hds : ∀ d ∈ ds, d.key < key)
    (hbs : ∀ b ∈ bs, key < b.key) : key ∉ m := by
  rw [h.mem_iff]
  rintro ⟨e, he, rfl⟩
  rcases List.mem_append.mp he with he | he
  · exact lt_irrefl _ (hds e he)
  · exact lt_irrefl _ (hbs e he)

theorem Holds.card_keys {s : SkipList K V} (h : Holds es m) (hs : Represents s es) :
    m.keys.card = es.length := by
  have hnodup : (es.map Entry.key).Nodup :=
    List.pairwise_map.mpr (hs.sorted.imp fun hlt => hlt.ne)
  have hkeys : m.keys = (es.map Entry.key).toFinset := by
    ext key
    rw [Finmap.mem_keys, h.mem_iff, List.mem_toFinset, List.mem_map]
  rw [hkeys, List.toFinset_card_of_nodup hnodup, List.length_map]

theorem Holds.insert {e : Entry K V} (h : Holds (ds ++ bs) m) (he : e.key ∉ m) :
    Holds (ds ++ e :: bs) (m.insert e.key e.val) := by
  intro key val
  have hperm : ∀ d, d ∈ ds ++ e :: bs ↔ d = e ∨ d ∈ ds ++ bs := by
    intro d
    rw [List.perm_middle.mem_iff, List.mem_cons]
  rcases eq_or_ne key e.key with rfl | hne
  · rw [Finmap.lookup_insert]
    constructor
    · intro hval
      exact ⟨e, (hperm e).mpr (.inl rfl), rfl, Option.some.inj hval⟩
    · rintro ⟨d, hd, hkey, rfl⟩
      rcases (hperm d).mp hd with rfl | hd
      · rfl
      · exact absurd (h.mem_iff.mpr ⟨d, hd, hkey⟩) he
  · rw [Finmap.lookup_insert_of_ne _ hne, h key val]
    constructor
    · rintro ⟨d, hd, hkey, hval⟩
      exact ⟨d, (hperm d).mpr (.inr hd), hkey, hval⟩
    · rintro ⟨d, hd, hkey, hval⟩
      rcases (hperm d).mp hd with rfl | hd
      · exact absurd hkey.symm hne
      · exact ⟨d, hd, hkey, hval⟩

theorem Holds.erase {e : Entry K V} (h : Holds (ds ++ e :: bs) m)
    (he : ∀ d ∈ ds ++ bs, d.key ≠ e.key) : Holds (ds ++ bs) (m.erase e.key) := by
  intro key val
  rcases eq_or_ne key e.key with rfl | hne
  · rw [Finmap.lookup_erase]
    constructor
    · intro hval
      cases hval
    · rintro ⟨d, hd, hkey, _⟩
      exact absurd hkey (he d hd)
  · rw [Finmap.lookup_erase_ne hne, h key val]
    constructor
    · rintro ⟨d, hd, hkey, hval⟩
      rcases List.mem_cons.mp (List.perm_middle.mem_iff.mp hd) with rfl | hd
      · exact absurd hkey.symm hne
      · exact ⟨d, hd, hkey, hval⟩
    · rintro ⟨d, hd, hkey, hval⟩
      exact ⟨d, List.perm_middle.mem_iff.mpr (List.mem_cons_of_mem e hd), hkey, hval⟩

end Holds

section Simulation

variable {s : SkipList K V} {m : FiniteMap K V}

theorem refines_empty [Inhabited K] [Inhabited V] :
    Refines (empty : SkipList K V) ∅ := by
  refine ⟨[], represents_empty, ?_⟩
  intro key val
  simp

theorem Refines.cases (h : Refines s m) (key : K) :
    (∃ ds e bs, Represents s (ds ++ e :: bs) ∧ Holds (ds ++ e :: bs) m ∧
        (∀ d ∈ ds, d.key < key) ∧ e.key = key ∧ m.lookup key = some e.val ∧ key ∈ m) ∨
      ∃ ds bs, Represents s (ds ++ bs) ∧ Holds (ds ++ bs) m ∧
        (∀ d ∈ ds, d.key < key) ∧ (∀ b ∈ bs, key < b.key) ∧ m.lookup key = none ∧
        key ∉ m := by
  obtain ⟨es, hs, hm⟩ := h
  rcases split_at es key hs.sorted with ⟨ds, e, bs, rfl, hds, he⟩ | ⟨ds, bs, rfl, hds, hbs⟩
  · have hlookup : m.lookup key = some e.val :=
      (hm key e.val).mpr ⟨e, List.mem_append_right ds List.mem_cons_self, he, rfl⟩
    exact .inl ⟨ds, e, bs, hs, hm, hds, he, hlookup, Finmap.mem_iff.mpr ⟨_, hlookup⟩⟩
  · have hnot := hm.not_mem hds hbs
    exact .inr ⟨ds, bs, hs, hm, hds, hbs, Finmap.lookup_eq_none.mpr hnot, hnot⟩

theorem Refines.insert (h : Refines s m) (key : K) (val : V) (level : Level) :
    ∃ s', perform s level (.insert key val) =
        .ok (s', (reference m (.insert key val)).2) ∧
      Refines s' (reference m (.insert key val)).1 := by
  rcases h.cases key with ⟨ds, e, bs, hs, hm, hds, he, _, hmem⟩ |
    ⟨ds, bs, hs, hm, hds, hbs, _, hmem⟩
  · refine ⟨s, ?_, ?_⟩
    · simp [perform, reference, hs.insertAt_present hds he, hmem]
    · simp only [reference, if_pos hmem]
      exact ⟨_, hs, hm⟩
  · obtain ⟨s', hinsert, hs'⟩ := hs.insertAt_absent hds hbs val level.property
    refine ⟨s', ?_, ?_⟩
    · simp [perform, reference, hinsert, hmem]
    · simp only [reference, if_neg hmem]
      exact ⟨_, hs', hm.insert hmem⟩

theorem Refines.erase (h : Refines s m) (key : K) (level : Level) :
    ∃ s', perform s level (.erase key) = .ok (s', (reference m (.erase key)).2) ∧
      Refines s' (reference m (.erase key)).1 := by
  rcases h.cases key with ⟨ds, e, bs, hs, hm, hds, rfl, _, hmem⟩ |
    ⟨ds, bs, hs, hm, hds, hbs, _, hmem⟩
  · obtain ⟨s', herase, hs', _⟩ := hs.erase_present hds rfl
    refine ⟨s', ?_, ?_⟩
    · simp [perform, reference, herase, hmem]
    · simp only [reference, if_pos hmem]
      refine ⟨_, hs', hm.erase ?_⟩
      obtain ⟨_, hbs, _⟩ := List.pairwise_append.mp hs.sorted
      intro d hd
      rcases List.mem_append.mp hd with hd | hd
      · exact (hds d hd).ne
      · exact ((List.pairwise_cons.mp hbs).1 d hd).ne'
  · refine ⟨s, ?_, ?_⟩
    · simp [perform, reference, hs.erase_absent hds hbs, hmem]
    · simp only [reference, if_neg hmem]
      exact ⟨_, hs, hm⟩

theorem Refines.find (h : Refines s m) (key : K) (level : Level) :
    perform s level (.find key) = .ok (s, (reference m (.find key)).2) := by
  rcases h.cases key with ⟨ds, e, bs, hs, hm, hds, he, hlookup, _⟩ |
    ⟨ds, bs, hs, hm, hds, hbs, hlookup, _⟩
  · obtain ⟨n, hnode, hkey, hval, _⟩ :=
      node_of_tower (hs.entries e (List.mem_append_right ds List.mem_cons_self))
    have hcontents : (n.key, n.val) = (key, e.val) := by
      rw [hkey, hval, ← he]
      rfl
    simp [perform, reference, hs.find_present hds he, hnode, hcontents, hlookup]
  · simp [perform, reference, hs.find_absent hds hbs, hlookup]

theorem Refines.get (h : Refines s m) (key : K) (level : Level) :
    perform s level (.get key) = .ok (s, (reference m (.get key)).2) := by
  rcases h.cases key with ⟨ds, e, bs, hs, hm, hds, he, hlookup, _⟩ |
    ⟨ds, bs, hs, hm, hds, hbs, hlookup, _⟩
  · simp [perform, reference, hs.get_present hds he, hlookup]
  · simp [perform, reference, hs.get_absent hds hbs, hlookup]

theorem Refines.perform (h : Refines s m) (call : Call K V) (level : Level) :
    ∃ s', perform s level call = .ok (s', (reference m call).2) ∧
      Refines s' (reference m call).1 := by
  cases call with
  | insert key val => exact h.insert key val level
  | erase key => exact h.erase key level
  | find key => exact ⟨s, h.find key level, h⟩
  | get key => exact ⟨s, h.get key level, h⟩
  | size =>
      refine ⟨s, ?_, h⟩
      obtain ⟨es, hs, hm⟩ := h
      simp [SkipListOperations.perform, reference, hs.node_num, hm.card_keys hs]

theorem Refines.run (h : Refines s m) (calls : List (Call K V × Level)) :
    ∃ s', run s calls = .ok (s', (referenceRun m (calls.map Prod.fst)).2) ∧
      Refines s' (referenceRun m (calls.map Prod.fst)).1 := by
  induction calls generalizing s m with
  | nil => exact ⟨s, rfl, h⟩
  | cons call calls ih =>
      obtain ⟨call, level⟩ := call
      obtain ⟨s₁, hcall, h₁⟩ := h.perform call level
      obtain ⟨s₂, hcalls, h₂⟩ := ih h₁
      refine ⟨s₂, ?_, h₂⟩
      simp [SkipListOperations.run, hcall, hcalls, referenceRun]

end Simulation

/-- From the empty list on, all calls end, and their results are those of the map. -/
theorem run_refines_map [Inhabited K] [Inhabited V] (calls : List (Call K V × Level)) :
    ∃ s, run empty calls = .ok (s, (referenceRun ∅ (calls.map Prod.fst)).2) ∧
      s.node_num = (referenceRun (∅ : FiniteMap K V) (calls.map Prod.fst)).1.keys.card := by
  obtain ⟨s, hrun, es, hs, hm⟩ := (refines_empty (K := K) (V := V)).run calls
  exact ⟨s, hrun, by rw [hs.node_num, hm.card_keys hs]⟩

end SkUtils.Containers.SkipListMap
