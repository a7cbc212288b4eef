import SkUtils.Containers.SkipListOperations

/-!
The nodes of a skip list in the order of their keys. At every level the chain from the
head links the nodes that are high enough, and every operation is a splice into or out
of these chains.
-/

namespace SkUtils.Containers.SkipListTowers

open SkUtils.Library.CheckedLoop
open SkUtils.Library.LinkedChain
open SkUtils.Containers.SkipListOperations

structure Entry (K V : Type) where
  addr : Addr
  key : K
  val : V
  level : Nat

variable {K V : Type}

def Entry.tower (e : Entry K V) : Tower K V :=
  ⟨e.key, e.val, e.level, e.level⟩

/-- The addresses of the nodes that have a slot at level `i`. -/
def levelAddrs (es : List (Entry K V)) (i : Nat) : List Addr :=
  (es.filter (i < ·.level)).map Entry.addr

/-- The nodes of `s` are the head and `es`, ordered by key and linked at every level. -/
structure Represents [LinearOrder K] (s : SkipList K V) (es : List (Entry K V)) : Prop where
  node_num : s.node_num = es.length
  sorted : es.Pairwise fun d e => d.key < e.key
  level : ∀ e ∈ es, 1 ≤ e.level ∧ e.level ≤ max_level
  nodup : (s.head :: es.map Entry.addr).Nodup
  head : ∃ t, tower s.heap s.head = some t ∧ t.level = max_level ∧ t.slots = max_level
  entries : ∀ e ∈ es, tower s.heap e.addr = some e.tower
  live : ∀ a t, tower s.heap a = some t → a ∈ s.head :: es.map Entry.addr
  top : ∀ a, s.top ≤ a → tower s.heap a = none
  chain : ∀ i, i < max_level → Chain (succ s.heap i) s.head (levelAddrs es i)

section Levels

theorem levelAddrs_append (ds es : List (Entry K V)) (i : Nat) :
    levelAddrs (ds ++ es) i = levelAddrs ds i ++ levelAddrs es i := by
  simp [levelAddrs]

theorem levelAddrs_cons_of_lt {e : Entry K V} {i : Nat} (h : i < e.level)
    (es : List (Entry K V)) : levelAddrs (e :: es) i = e.addr :: levelAddrs es i := by
  simp [levelAddrs, h]

theorem levelAddrs_cons_of_le {e : Entry K V} {i : Nat} (h : e.level ≤ i)
    (es : List (Entry K V)) : levelAddrs (e :: es) i = levelAddrs es i := by
  simp [levelAddrs, h]

theorem mem_levelAddrs {es : List (Entry K V)} {i : Nat} {a : Addr} :
    a ∈ levelAddrs es i ↔ ∃ e ∈ es, i < e.level ∧ e.addr = a := by
  simp [levelAddrs, and_assoc]

theorem levelAddrs_sublist (es : List (Entry K V)) (i : Nat) :
    (levelAddrs es i).Sublist (es.map Entry.addr) :=
  List.filter_sublist.map _

theorem levelAddrs_zero {es : List (Entry K V)} (h : ∀ e ∈ es, 1 ≤ e.level) :
    levelAddrs es 0 = es.map Entry.addr := by
  rw [levelAddrs, List.filter_eq_self.mpr]
  intro e he
  exact decide_eq_true (h e he)

end Levels

section Order

variable [LinearOrder K]

theorem split_at (es : List (Entry K V)) (key : K)
    (hsorted : es.Pairwise fun d e => d.key < e.key) :
    (∃ ds e bs, es = ds ++ e :: bs ∧ (∀ d ∈ ds, d.key < key) ∧ e.key = key) ∨
      ∃ ds bs, es = ds ++ bs ∧ (∀ d ∈ ds, d.key < key) ∧ ∀ b ∈ bs, key < b.key := by
  induction es with
  | nil => exact .inr ⟨[], [], rfl, by simp, by simp⟩
  | cons e es ih =>
      obtain ⟨hfirst, hrest⟩ := List.pairwise_cons.mp hsorted
      rcases lt_trichotomy e.key key with hlt | heq | hgt
      · rcases ih hrest with ⟨ds, d, bs, rfl, hds, hd⟩ | ⟨ds, bs, rfl, hds, hbs⟩
        · refine .inl ⟨e :: ds, d, bs, rfl, ?_, hd⟩
          exact List.forall_mem_cons.mpr ⟨hlt, hds⟩
        · refine .inr ⟨e :: ds, bs, rfl, ?_, hbs⟩
          exact List.forall_mem_cons.mpr ⟨hlt, hds⟩
      · exact .inl ⟨[], e, es, rfl, by simp, heq⟩
      · refine .inr ⟨[], e :: es, rfl, by simp, ?_⟩
        refine List.forall_mem_cons.mpr ⟨hgt, ?_⟩
        intro b hb
        exact hgt.trans (hfirst b hb)

end Order

/-- The node of level `i` behind which a node between `ds` and the rest belongs. -/
def pred (s : SkipList K V) (ds : List (Entry K V)) (i : Nat) : Addr :=
  last s.head (levelAddrs ds i)

theorem pred_mem (s : SkipList K V) (ds : List (Entry K V)) (i : Nat) :
    pred s ds i ∈ s.head :: levelAddrs ds i :=
  last_mem ..

theorem levelAddrs_subset {es : List (Entry K V)} {i j : Nat} (hij : i ≤ j) :
    levelAddrs es j ⊆ levelAddrs es i := by
  intro a ha
  obtain ⟨e, he, hlevel, rfl⟩ := mem_levelAddrs.mp ha
  exact mem_levelAddrs.mpr ⟨e, he, by omega, rfl⟩

section Search

variable [LinearOrder K] {s : SkipList K V} {es ds bs : List (Entry K V)} {key : K}

theorem Represents.hasSlot_head (h : Represents s es) {i : Nat} (hi : i < max_level) :
    HasSlot s.heap s.head i := by
  obtain ⟨t, ht, _, hslots⟩ := h.head
  exact ⟨t, ht, hslots ▸ hi⟩

theorem Represents.hasSlot_entry (h : Represents s es) {e : Entry K V} (he : e ∈ es)
    {i : Nat} (hi : i < e.level) : HasSlot s.heap e.addr i :=
  ⟨e.tower, h.entries e he, hi⟩

theorem Represents.hasSlot (h : Represents s es) {i : Nat} (hi : i < max_level) {a : Addr}
    (ha : a ∈ s.head :: levelAddrs es i) : HasSlot s.heap a i := by
  rcases List.mem_cons.mp ha with rfl | ha
  · exact h.hasSlot_head hi
  · obtain ⟨e, he, hlevel, rfl⟩ := mem_levelAddrs.mp ha
    exact h.hasSlot_entry he hlevel

theorem advance_eq_ok {heap : Heap K V} {i fuel : Nat} {a : Addr} {xs ys : List (Entry K V)}
    (hchain : Chain (succ heap i) a ((xs ++ ys).map Entry.addr))
    (hslot : ∀ b ∈ a :: xs.map Entry.addr, HasSlot heap b i)
    (htower : ∀ e ∈ xs ++ ys, tower heap e.addr = some e.tower)
    (hxs : ∀ e ∈ xs, e.key < key) (hys : ∀ e ∈ ys, key ≤ e.key)
    (hfuel : xs.length < fuel) :
    advance heap key i fuel a = .ok (last a (xs.map Entry.addr)) := by
  induction xs generalizing a fuel with
  | nil =>
      obtain ⟨fuel, rfl⟩ := Nat.exists_eq_succ_of_ne_zero (by omega : fuel ≠ 0)
      rw [advance, nextNode_eq_ok (hslot a List.mem_cons_self), ok_bind]
      cases ys with
      | nil =>
          rw [show succ heap i a = none from hchain]
          rfl
      | cons e ys =>
          obtain ⟨n, hnode, hkey, _⟩ := node_of_tower (htower e List.mem_cons_self)
          have hstop : ¬ n.key < key := by
            rw [hkey]
            exact not_lt.mpr (hys e List.mem_cons_self)
          rw [show succ heap i a = some e.addr from hchain.1]
          simp [hnode, hstop, last]
  | cons e xs ih =>
      obtain ⟨fuel, rfl⟩ := Nat.exists_eq_succ_of_ne_zero (by omega : fuel ≠ 0)
      obtain ⟨n, hnode, hkey, _⟩ := node_of_tower (htower e List.mem_cons_self)
      have hgo : n.key < key := by
        rw [hkey]
        exact hxs e List.mem_cons_self
      have hrest : advance heap key i fuel e.addr = .ok (last e.addr (xs.map Entry.addr)) := by
        apply ih hchain.2
        · exact fun b hb => hslot b (List.mem_cons_of_mem a hb)
        · exact fun d hd => htower d (List.mem_cons_of_mem e hd)
        · exact fun d hd => hxs d (List.mem_cons_of_mem e hd)
        · simpa using hfuel
      rw [advance, nextNode_eq_ok (hslot a List.mem_cons_self), ok_bind,
        show succ heap i a = some e.addr from hchain.1]
      simp [hnode, hgo, hrest, last]

theorem Represents.advance (h : Represents s (ds ++ bs)) (hds : ∀ d ∈ ds, d.key < key)
    (hbs : ∀ b ∈ bs, key ≤ b.key) {i : Nat} (hi : i < max_level) {curr : Addr}
    (hcurr : curr ∈ s.head :: levelAddrs ds i) :
    advance s.heap key i (s.node_num.toNat + 1) curr = .ok (pred s ds i) := by
  obtain ⟨before, behind, hsplit, hlast⟩ := exists_append_of_mem hcurr
  obtain ⟨xs, ys, hfilter, hxs, hys⟩ := List.map_eq_append_iff.mp hsplit
  have hmem : ∀ e ∈ ys, e ∈ ds ∧ i < e.level := by
    intro e he
    have hfiltered : e ∈ ds.filter (i < ·.level) := by
      rw [hfilter]
      exact List.mem_append_right xs he
    simpa using List.mem_filter.mp hfiltered
  have hpred : pred s ds i = last curr (ys.map Entry.addr) := by
    rw [pred, hsplit, last_append, hlast, hys]
  have hchain : Chain (succ s.heap i) curr
      ((ys ++ bs.filter (i < ·.level)).map Entry.addr) := by
    have hall := h.chain i hi
    rw [levelAddrs_append, hsplit, List.append_assoc] at hall
    rw [List.map_append, hys, ← hlast]
    exact hall.drop
  rw [hpred]
  apply advance_eq_ok hchain
  · intro b hb
    rcases List.mem_cons.mp hb with rfl | hb
    · apply h.hasSlot hi
      rw [levelAddrs_append]
      exact List.cons_subset_cons _ (List.subset_append_left ..) hcurr
    · obtain ⟨e, he, rfl⟩ := List.mem_map.mp hb
      exact h.hasSlot_entry (List.mem_append_left bs (hmem e he).1) (hmem e he).2
  · intro e he
    apply h.entries
    rcases List.mem_append.mp he with he | he
    · exact List.mem_append_left bs (hmem e he).1
    · exact List.mem_append_right ds (List.mem_of_mem_filter he)
  · exact fun e he => hds e (hmem e he).1
  · exact fun e he => hbs e (List.mem_of_mem_filter he)
  · have hle : ys.length ≤ ds.length := by
      calc
        ys.length ≤ (ds.filter (i < ·.level)).length := by simp [hfilter]
        _ ≤ ds.length := List.length_filter_le ..
    rw [h.node_num, List.length_append]
    omega

/-- The outer loop fills `update` with the predecessors of its levels. -/
theorem Represents.search (h : Represents s (ds ++ bs)) (hds : ∀ d ∈ ds, d.key < key)
    (hbs : ∀ b ∈ bs, key ≤ b.key) {i : Nat} (hi : i < max_level) {curr : Addr}
    (hcurr : curr ∈ s.head :: levelAddrs ds i) {update : List (Option Addr)}
    (hlength : update.length = max_level) :
    ∃ update', s.search key (i + 1) curr update = .ok (pred s ds 0, update') ∧
      update'.length = max_level ∧
      (∀ j, j ≤ i → update'[j]? = some (some (pred s ds j))) ∧
      ∀ j, i < j → update'[j]? = update[j]? := by
  induction i generalizing curr update with
  | zero =>
      refine ⟨update.set 0 (some (pred s ds 0)), ?_, by simpa using hlength, ?_, ?_⟩
      · rw [SkipList.search, h.advance hds hbs hi hcurr]
        rfl
      · intro j hj
        obtain rfl : j = 0 := by omega
        exact List.getElem?_set_self (hlength ▸ hi)
      · intro j hj
        exact List.getElem?_set_ne (by omega)
  | succ i ih =>
      have hpred : pred s ds (i + 1) ∈ s.head :: levelAddrs ds i :=
        List.cons_subset_cons _ (levelAddrs_subset (Nat.le_succ i)) (pred_mem s ds (i + 1))
      have hset : (update.set (i + 1) (some (pred s ds (i + 1)))).length = max_level := by
        rw [List.length_set, hlength]
      obtain ⟨update', hsearch, hlength', hdone, hrest⟩ := ih (by omega) hpred hset
      refine ⟨update', ?_, hlength', ?_, ?_⟩
      · rw [SkipList.search, h.advance hds hbs hi hcurr]
        exact hsearch
      · intro j hj
        rcases Nat.le_succ_iff.mp hj with hle | rfl
        · exact hdone j hle
        · rw [hrest (i + 1) (by omega)]
          exact List.getElem?_set_self (hlength ▸ hi)
      · intro j hj
        rw [hrest j (by omega)]
        exact List.getElem?_set_ne (by omega)

/-- The pointers that `locate` collects are the predecessors of the position. -/
def Predecessors (s : SkipList K V) (ds : List (Entry K V)) (update : List (Option Addr)) :
    Prop :=
  update.length = max_level ∧ ∀ i, i < max_level → update[i]? = some (some (pred s ds i))

theorem Represents.locate_start (h : Represents s (ds ++ bs))
    (hds : ∀ d ∈ ds, d.key < key) (hbs : ∀ b ∈ bs, key ≤ b.key) :
    ∃ update, Predecessors s ds update ∧
      s.search key max_level s.head (List.replicate max_level none) =
        .ok (pred s ds 0, update) ∧
      nextNode s.heap (pred s ds 0) 0 = .ok (bs.map Entry.addr).head? := by
  have hlevels : (19 : Nat) < max_level := by decide
  obtain ⟨update, hsearch, hlength, hpreds, _⟩ :=
    h.search hds hbs hlevels List.mem_cons_self (List.length_replicate ..)
  refine ⟨update, ⟨hlength, fun i hi => hpreds i (Nat.le_of_lt_succ hi)⟩, hsearch, ?_⟩
  have hzero : 0 < max_level := by decide
  have hlevel : ∀ e ∈ ds ++ bs, 1 ≤ e.level := fun e he => (h.level e he).1
  have hchain := h.chain 0 hzero
  rw [levelAddrs_append] at hchain
  have hnext : succ s.heap 0 (pred s ds 0) = (levelAddrs bs 0).head? := by
    have hdrop := hchain.drop
    revert hdrop
    cases levelAddrs bs 0 with
    | nil => exact id
    | cons b bs => exact And.left
  rw [nextNode_eq_ok, hnext, levelAddrs_zero]
  · exact fun e he => hlevel e (List.mem_append_right ds he)
  · apply h.hasSlot hzero
    rw [levelAddrs_append]
    exact List.cons_subset_cons _ (List.subset_append_left ..) (pred_mem s ds 0)

theorem Represents.locate_present {e : Entry K V} (h : Represents s (ds ++ e :: bs))
    (hds : ∀ d ∈ ds, d.key < key) (he : e.key = key) :
    ∃ update, Predecessors s ds update ∧ s.locate key = .ok (update, some e.addr) := by
  have hbs : ∀ b ∈ e :: bs, key ≤ b.key := by
    have hsorted := (List.pairwise_cons.mp (List.pairwise_append.mp h.sorted).2.1).1
    rw [← he]
    exact List.forall_mem_cons.mpr ⟨le_refl _, fun b hb => (hsorted b hb).le⟩
  obtain ⟨update, hpreds, hsearch, hnext⟩ := h.locate_start hds hbs
  obtain ⟨n, hnode, hkey, _⟩ :=
    node_of_tower (h.entries e (List.mem_append_right ds List.mem_cons_self))
  have hn : n.key = key := hkey.trans he
  refine ⟨update, hpreds, ?_⟩
  rw [SkipList.locate, hsearch, ok_bind]
  simp [hnext, hnode, hn]

theorem Represents.locate_absent (h : Represents s (ds ++ bs))
    (hds : ∀ d ∈ ds, d.key < key) (hbs : ∀ b ∈ bs, key < b.key) :
    ∃ update, Predecessors s ds update ∧ s.locate key = .ok (update, none) := by
  obtain ⟨update, hpreds, hsearch, hnext⟩ := h.locate_start hds fun b hb => (hbs b hb).le
  refine ⟨update, hpreds, ?_⟩
  rw [SkipList.locate, hsearch, ok_bind]
  cases bs with
  | nil => simp [hnext]
  | cons b bs =>
      obtain ⟨n, hnode, hkey, _⟩ :=
        node_of_tower (h.entries b (List.mem_append_right ds List.mem_cons_self))
      have hn : n.key ≠ key := hkey ▸ (hbs b List.mem_cons_self).ne'
      simp [hnext, hnode, hn]

end Search

section Allocation

theorem tower_new (heap : Heap K V) (a : Addr) (level : Nat) (key : K) (val : V) :
    tower (Function.update heap a (some (.ofLevel level key val))) =
      Function.update (tower heap) a (some ⟨key, val, level, level⟩) := by
  funext b
  rcases eq_or_ne b a with rfl | hb
  · simp [tower, SkipListNode.ofLevel]
  · simp [tower, hb]

theorem succ_new {heap : Heap K V} {a : Addr} (ha : tower heap a = none) (level : Nat)
    (key : K) (val : V) (i : Nat) :
    succ (Function.update heap a (some (.ofLevel level key val))) i = succ heap i := by
  have hnone : heap a = none := Option.map_eq_none_iff.mp ha
  funext b
  rcases eq_or_ne b a with rfl | hb
  · rcases Nat.lt_or_ge i level with hi | hi
    · simp [succ, SkipListNode.ofLevel, hnone, hi]
    · simp [succ, SkipListNode.ofLevel, hnone, hi]
  · simp [succ, hb]

theorem tower_delete (heap : Heap K V) (a : Addr) :
    tower (Function.update heap a none) = Function.update (tower heap) a none := by
  funext b
  rcases eq_or_ne b a with rfl | hb
  · simp [tower]
  · simp [tower, hb]

theorem succ_delete {heap : Heap K V} {a b : Addr} (hb : b ≠ a) (i : Nat) :
    succ (Function.update heap a none) i b = succ heap i b := by
  simp [succ, hb]

end Allocation

section Insert

variable [LinearOrder K] {s : SkipList K V} {es ds bs : List (Entry K V)} {key : K}

theorem represents_empty [Inhabited K] [Inhabited V] :
    Represents (empty : SkipList K V) [] where
  node_num := rfl
  sorted := .nil
  level := by simp
  nodup := by simp
  head := ⟨_, rfl, rfl, rfl⟩
  entries := by simp
  live := by
    intro a t ht
    rcases eq_or_ne a 0 with rfl | ha
    · exact List.mem_singleton_self _
    · simp [empty, tower, ha] at ht
  top := by
    intro a ha
    have hne : a ≠ 0 := by
      rintro rfl
      exact absurd ha (Nat.not_succ_le_zero 0)
    simp [empty, tower, hne]
  chain := by
    intro i hi
    have hslot : (List.replicate max_level (none : Option Addr))[i]? = some none := by
      simp [hi]
    change succ (empty : SkipList K V).heap i 0 = none
    simp [succ, empty, SkipListNode.ofLevel, hslot]

theorem Represents.top_not_mem (h : Represents s es) :
    s.top ∉ s.head :: es.map Entry.addr := by
  intro hmem
  have hnone := h.top s.top (le_refl _)
  rcases List.mem_cons.mp hmem with heq | hmem
  · obtain ⟨t, ht, _⟩ := h.head
    rw [heq, ht] at hnone
    cases hnone
  · obtain ⟨e, he, heq⟩ := List.mem_map.mp hmem
    rw [← heq, h.entries e he] at hnone
    cases hnone

theorem Represents.levelAddrs_nodup (h : Represents s es) (i : Nat) :
    (s.head :: levelAddrs es i).Nodup :=
  h.nodup.sublist ((levelAddrs_sublist es i).cons_cons _)

theorem Represents.pred_hasSlot (h : Represents s (ds ++ bs)) {i : Nat}
    (hi : i < max_level) : HasSlot s.heap (pred s ds i) i := by
  apply h.hasSlot hi
  rw [levelAddrs_append]
  exact List.cons_subset_cons _ (List.subset_append_left ..) (pred_mem s ds i)

theorem pairwise_insert {e : Entry K V} (h : (ds ++ bs).Pairwise fun d e => d.key < e.key)
    (hds : ∀ d ∈ ds, d.key < e.key) (hbs : ∀ b ∈ bs, e.key < b.key) :
    (ds ++ e :: bs).Pairwise fun d e => d.key < e.key := by
  obtain ⟨hd, hb, hdb⟩ := List.pairwise_append.mp h
  refine List.pairwise_append.mpr ⟨hd, List.pairwise_cons.mpr ⟨hbs, hb⟩, ?_⟩
  intro d hmem
  exact List.forall_mem_cons.mpr ⟨hds d hmem, hdb d hmem⟩

/-- The nodes after `e` is linked between `ds` and `bs` at the levels below its own. -/
theorem Represents.linked {s' : SkipList K V} {e : Entry K V} (h : Represents s (ds ++ bs))
    (hds : ∀ d ∈ ds, d.key < e.key) (hbs : ∀ b ∈ bs, e.key < b.key)
    (hlevel : 1 ≤ e.level ∧ e.level ≤ max_level) (haddr : e.addr = s.top)
    (hnode_num : s'.node_num = s.node_num + 1) (hhead : s'.head = s.head)
    (htop : s'.top = s.top + 1)
    (htower : tower s'.heap = Function.update (tower s.heap) s.top (some e.tower))
    (hlinked : ∀ i, i < e.level →
      succ s'.heap i = link (succ s.heap i) (pred s ds i) s.top)
    (hkept : ∀ i, e.level ≤ i → succ s'.heap i = succ s.heap i) :
    Represents s' (ds ++ e :: bs) := by
  have hnew := h.top_not_mem
  have hperm : (s'.head :: (ds ++ e :: bs).map Entry.addr).Perm
      (s.top :: s.head :: (ds ++ bs).map Entry.addr) := by
    rw [hhead, ← haddr]
    exact (List.Perm.cons _ (List.perm_middle.map _)).trans (List.Perm.swap ..)
  have hold : ∀ a ∈ s.head :: (ds ++ bs).map Entry.addr, tower s'.heap a = tower s.heap a := by
    intro a ha
    rw [htower, Function.update_of_ne]
    rintro rfl
    exact hnew ha
  constructor
  case node_num =>
    rw [hnode_num, h.node_num]
    simp only [List.length_append, List.length_cons]
    omega
  case sorted => exact pairwise_insert h.sorted hds hbs
  case level =>
    intro d hd
    rcases List.mem_cons.mp (List.perm_middle.mem_iff.mp hd) with rfl | hd
    · exact hlevel
    · exact h.level d hd
  case nodup => exact hperm.nodup_iff.mpr (List.nodup_cons.mpr ⟨hnew, h.nodup⟩)
  case head =>
    rw [hhead, hold s.head List.mem_cons_self]
    exact h.head
  case entries =>
    intro d hd
    rcases List.mem_cons.mp (List.perm_middle.mem_iff.mp hd) with rfl | hd
    · rw [htower, haddr, Function.update_self]
    · rw [hold d.addr (List.mem_cons_of_mem _ (List.mem_map_of_mem hd))]
      exact h.entries d hd
  case live =>
    intro a t ht
    rw [hperm.mem_iff]
    rcases eq_or_ne a s.top with rfl | ha
    · exact List.mem_cons_self
    · rw [htower, Function.update_of_ne ha] at ht
      exact List.mem_cons_of_mem _ (h.live a t ht)
  case top =>
    intro a ha
    rw [htop] at ha
    have hlt : s.top < a := ha
    rw [htower, Function.update_of_ne hlt.ne']
    exact h.top a hlt.le
  case chain =>
    intro i hi
    have hchain := h.chain i hi
    have hnodup := h.levelAddrs_nodup i
    have hfresh : s.top ∉ s.head :: levelAddrs (ds ++ bs) i := fun hmem =>
      hnew (List.cons_subset_cons _ (levelAddrs_sublist _ i).subset hmem)
    rw [levelAddrs_append] at hchain hnodup hfresh
    rw [hhead, levelAddrs_append]
    rcases Nat.lt_or_ge i e.level with hlt | hge
    · rw [hlinked i hlt, levelAddrs_cons_of_lt hlt, haddr]
      exact hchain.link hnodup hfresh
    · rw [hkept i hge, levelAddrs_cons_of_le hge]
      exact hchain

theorem Represents.insertAt_present {e : Entry K V} (h : Represents s (ds ++ e :: bs))
    (hds : ∀ d ∈ ds, d.key < key) (he : e.key = key) (val : V) (level : Nat) :
    s.insertAt key val level = .ok (s, false) := by
  obtain ⟨update, _, hlocate⟩ := h.locate_present hds he
  rw [SkipList.insertAt, hlocate]
  rfl

theorem Represents.splice (h : Represents s (ds ++ bs)) {update : List (Option Addr)}
    (hpreds : Predecessors s ds update) (key : K) (val : V) {level i : Nat} (hi : i < level)
    (hmax : i < max_level) {heap : Heap K V}
    (hheap : tower heap =
      tower (Function.update s.heap s.top (some (.ofLevel level key val)))) :
    ∃ heap', SkipList.splice update s.top heap i = .ok heap' ∧
      Rewires i (fun f => link f (pred s ds i) s.top) heap heap' := by
  rw [tower_new] at hheap
  apply splice_eq_ok (hpreds.2 i hmax)
  · obtain ⟨t, ht, hslots⟩ := h.pred_hasSlot hmax
    refine ⟨t, ?_, hslots⟩
    rw [hheap, Function.update_of_ne, ht]
    intro heq
    rw [heq, h.top s.top (le_refl _)] at ht
    cases ht
  · refine ⟨⟨key, val, level, level⟩, ?_, hi⟩
    rw [hheap, Function.update_self]

theorem Represents.insertAt_absent (h : Represents s (ds ++ bs))
    (hds : ∀ d ∈ ds, d.key < key) (hbs : ∀ b ∈ bs, key < b.key) (val : V) {level : Nat}
    (hlevel : 1 ≤ level ∧ level ≤ max_level) :
    ∃ s', s.insertAt key val level = .ok (s', true) ∧
      Represents s' (ds ++ ⟨s.top, key, val, level⟩ :: bs) := by
  obtain ⟨update, hpreds, hlocate⟩ := h.locate_absent hds hbs
  have hfresh := h.top s.top (le_refl _)
  obtain ⟨heap', hloop, htower, hlinked, hkept⟩ :=
    rewire_levels fun i (hi : i < level) _ hheap =>
      h.splice hpreds key val hi (by omega) hheap
  refine ⟨{ s with heap := heap', top := s.top + 1, node_num := s.node_num + 1 }, ?_, ?_⟩
  · rw [SkipList.insertAt, hlocate, ok_bind]
    simp [hloop]
  · refine h.linked hds hbs hlevel rfl rfl rfl rfl (htower.trans (tower_new ..)) ?_ ?_
    · intro i hi
      rw [hlinked i hi, succ_new hfresh]
    · intro i hi
      rw [hkept i hi, succ_new hfresh]

theorem Represents.insertAt_outOfBounds (h : Represents s (ds ++ bs))
    (hds : ∀ d ∈ ds, d.key < key) (hbs : ∀ b ∈ bs, key < b.key) (val : V) {level : Nat}
    (hlevel : max_level < level) : s.insertAt key val level = .error .outOfBounds := by
  obtain ⟨update, hpreds, hlocate⟩ := h.locate_absent hds hbs
  obtain ⟨heap', hloop, _⟩ :=
    rewire_levels fun i (hi : i < max_level) _ hheap =>
      h.splice hpreds key val (hi.trans hlevel) hi hheap
  have hround : SkipList.splice update s.top heap' max_level = .error .outOfBounds := by
    have hnone : update[max_level]? = none := List.getElem?_eq_none hpreds.1.le
    rw [SkipList.splice, updateAt, hnone]
    rfl
  rw [SkipList.insertAt, hlocate, ok_bind]
  simp [foldlM_range_error hlevel hloop hround]

end Insert

section Erase

variable [LinearOrder K] {s : SkipList K V} {es ds bs : List (Entry K V)} {key : K}

/-- The nodes after `e` is unlinked at its levels and deleted. -/
theorem Represents.unlinked {s' : SkipList K V} {e : Entry K V}
    (h : Represents s (ds ++ e :: bs)) (hnode_num : s'.node_num = s.node_num - 1)
    (hhead : s'.head = s.head) (htop : s'.top = s.top)
    (htower : tower s'.heap = Function.update (tower s.heap) e.addr none)
    (hunlinked : ∀ i, i < e.level → ∀ a, a ≠ e.addr →
      succ s'.heap i a = unlink (succ s.heap i) (pred s ds i) e.addr a)
    (hkept : ∀ i, e.level ≤ i → ∀ a, a ≠ e.addr → succ s'.heap i a = succ s.heap i a) :
    Represents s' (ds ++ bs) := by
  have hperm : (s.head :: (ds ++ e :: bs).map Entry.addr).Perm
      (e.addr :: s.head :: (ds ++ bs).map Entry.addr) :=
    (List.Perm.cons _ (List.perm_middle.map _)).trans (List.Perm.swap ..)
  obtain ⟨hgone, hnodup⟩ := List.nodup_cons.mp (hperm.nodup_iff.mp h.nodup)
  have hsublist : (ds ++ bs).Sublist (ds ++ e :: bs) :=
    (List.Sublist.refl ds).append (List.sublist_cons_self e bs)
  have hold : ∀ a ∈ s.head :: (ds ++ bs).map Entry.addr, tower s'.heap a = tower s.heap a := by
    intro a ha
    rw [htower, Function.update_of_ne]
    rintro rfl
    exact hgone ha
  constructor
  case node_num =>
    rw [hnode_num, h.node_num]
    simp only [List.length_append, List.length_cons]
    omega
  case sorted => exact h.sorted.sublist hsublist
  case level => exact fun d hd => h.level d (hsublist.subset hd)
  case nodup => exact hhead ▸ hnodup
  case head =>
    rw [hhead, hold s.head List.mem_cons_self]
    exact h.head
  case entries =>
    intro d hd
    rw [hold d.addr (List.mem_cons_of_mem _ (List.mem_map_of_mem hd))]
    exact h.entries d (hsublist.subset hd)
  case live =>
    intro a t ht
    have hne : a ≠ e.addr := by
      rintro rfl
      rw [htower, Function.update_self] at ht
      cases ht
    rw [htower, Function.update_of_ne hne] at ht
    rw [hhead]
    exact List.mem_of_ne_of_mem hne (hperm.mem_iff.mp (h.live a t ht))
  case top =>
    intro a ha
    rcases eq_or_ne a e.addr with rfl | hne
    · rw [htower, Function.update_self]
    · rw [htower, Function.update_of_ne hne]
      exact h.top a (htop ▸ ha)
  case chain =>
    intro i hi
    have hchain := h.chain i hi
    have hnodup := h.levelAddrs_nodup i
    have hne : ∀ a ∈ s.head :: levelAddrs (ds ++ bs) i, a ≠ e.addr := by
      rintro a ha rfl
      exact hgone (List.cons_subset_cons _ (levelAddrs_sublist _ i).subset ha)
    rw [levelAddrs_append] at hchain hnodup hne
    rw [hhead, levelAddrs_append]
    rcases Nat.lt_or_ge i e.level with hlt | hge
    · rw [levelAddrs_cons_of_lt hlt] at hchain hnodup
      exact (hchain.unlink hnodup).congr fun a ha => hunlinked i hlt a (hne a ha)
    · rw [levelAddrs_cons_of_le hge] at hchain
      exact hchain.congr fun a ha => hkept i hge a (hne a ha)

theorem Represents.erase_absent (h : Represents s (ds ++ bs))
    (hds : ∀ d ∈ ds, d.key < key) (hbs : ∀ b ∈ bs, key < b.key) :
    s.erase key = .ok (s, false) := by
  obtain ⟨update, _, hlocate⟩ := h.locate_absent hds hbs
  rw [SkipList.erase, hlocate]
  split <;> rfl

theorem Represents.erase_present {e : Entry K V} (h : Represents s (ds ++ e :: bs))
    (hds : ∀ d ∈ ds, d.key < key) (he : e.key = key) :
    ∃ s', s.erase key = .ok (s', true) ∧ Represents s' (ds ++ bs) ∧
      s'.heap e.addr = none := by
  obtain ⟨update, ⟨_, hpreds⟩, hlocate⟩ := h.locate_present hds he
  have hmem : e ∈ ds ++ e :: bs := List.mem_append_right ds List.mem_cons_self
  have hlevel := (h.level e hmem).2
  obtain ⟨n, hnode, _, _, hn⟩ := node_of_tower (h.entries e hmem)
  have hround : ∀ i, i < e.level → ∀ heap, tower heap = tower s.heap →
      ∃ heap', SkipList.detach update e.addr heap i = .ok heap' ∧
        Rewires i (fun f => unlink f (pred s ds i) e.addr) heap heap' := by
    intro i hi heap hheap
    apply detach_eq_ok (hpreds i (by omega))
    · exact (h.pred_hasSlot (by omega)).congr hheap
    · exact (h.hasSlot_entry hmem hi).congr hheap
  obtain ⟨heap', hloop, htower, hunlinked, hkept⟩ := rewire_levels hround
  have hlive : ¬ s.node_num ≤ 0 := by
    rw [h.node_num, List.length_append, List.length_cons]
    omega
  refine ⟨{ s with heap := Function.update heap' e.addr none, node_num := s.node_num - 1 },
    ?_, ?_, Function.update_self ..⟩
  · rw [SkipList.erase, if_neg hlive, hlocate, ok_bind]
    have hloop' : (List.range n.level).foldlM (SkipList.detach update e.addr) s.heap =
        .ok heap' := hn ▸ hloop
    simp [hnode, hloop']
  · refine h.unlinked rfl rfl rfl ?_ ?_ ?_
    · rw [tower_delete, htower]
    · intro i hi a ha
      rw [succ_delete ha, hunlinked i hi]
    · intro i hi a ha
      rw [succ_delete ha, hkept i hi]

end Erase

section Lookup

variable [LinearOrder K] {s : SkipList K V} {ds bs : List (Entry K V)} {key : K}

theorem Represents.find_present {e : Entry K V} (h : Represents s (ds ++ e :: bs))
    (hds : ∀ d ∈ ds, d.key < key) (he : e.key = key) :
    s.find key = .ok (some e.addr) := by
  obtain ⟨update, _, hlocate⟩ := h.locate_present hds he
  rw [SkipList.find, hlocate]
  rfl

theorem Represents.find_absent (h : Represents s (ds ++ bs)) (hds : ∀ d ∈ ds, d.key < key)
    (hbs : ∀ b ∈ bs, key < b.key) : s.find key = .ok none := by
  obtain ⟨update, _, hlocate⟩ := h.locate_absent hds hbs
  rw [SkipList.find, hlocate]
  rfl

theorem Represents.get_present {e : Entry K V} (h : Represents s (ds ++ e :: bs))
    (hds : ∀ d ∈ ds, d.key < key) (he : e.key = key) : s.get key = .ok (.ok e.val) := by
  obtain ⟨n, hnode, _, hval, _⟩ :=
    node_of_tower (h.entries e (List.mem_append_right ds List.mem_cons_self))
  have hval' : n.val = e.val := hval
  rw [SkipList.get, h.find_present hds he]
  simp [hnode, hval']

theorem Represents.get_absent (h : Represents s (ds ++ bs)) (hds : ∀ d ∈ ds, d.key < key)
    (hbs : ∀ b ∈ bs, key < b.key) : s.get key = .ok (.error "Unexists Key") := by
  rw [SkipList.get, h.find_absent hds hbs]
  rfl

end Lookup

section Shape

variable [LinearOrder K] {s : SkipList K V} {es : List (Entry K V)}

theorem Represents.head_ne (h : Represents s es) {e : Entry K V} (he : e ∈ es) :
    e.addr ≠ s.head := by
  intro heq
  apply (List.nodup_cons.mp h.nodup).1
  rw [← heq]
  exact List.mem_map_of_mem he

theorem Represents.heap_entry (h : Represents s es) {e : Entry K V} (he : e ∈ es) :
    ∃ n, s.heap e.addr = some n ∧ n.key = e.key ∧ n.level = e.level := by
  obtain ⟨n, hn, htower⟩ := Option.map_eq_some_iff.mp (h.entries e he)
  exact ⟨n, hn, congrArg Tower.key htower, congrArg Tower.level htower⟩

theorem Represents.slots (h : Represents s es) {a : Addr} {n : SkipListNode K V}
    (hn : s.heap a = some n) :
    n.nextNodes.length = n.level ∧ 1 ≤ n.level ∧ n.level ≤ max_level := by
  have htower : tower s.heap a = some ⟨n.key, n.val, n.level, n.nextNodes.length⟩ := by
    rw [tower, hn]
    rfl
  rcases List.mem_cons.mp (h.live a _ htower) with rfl | ha
  · obtain ⟨t, ht, hlevel, hslots⟩ := h.head
    obtain rfl := Option.some.inj (ht.symm.trans htower)
    refine ⟨hslots.trans hlevel.symm, ?_, hlevel.le⟩
    rw [show n.level = max_level from hlevel]
    decide
  · obtain ⟨e, he, rfl⟩ := List.mem_map.mp ha
    have heq := Option.some.inj ((h.entries e he).symm.trans htower)
    have hlevel : e.level = n.level := congrArg Tower.level heq
    have hslots : e.level = n.nextNodes.length := congrArg Tower.slots heq
    exact ⟨hslots.symm.trans hlevel, hlevel ▸ h.level e he⟩

theorem Represents.mem_chain (h : Represents s es) {a : Addr} {n : SkipListNode K V}
    (hn : s.heap a = some n) {i : Nat} (hi : i < n.level) :
    a ∈ s.head :: levelAddrs es i := by
  have htower : tower s.heap a = some ⟨n.key, n.val, n.level, n.nextNodes.length⟩ := by
    rw [tower, hn]
    rfl
  rcases List.mem_cons.mp (h.live a _ htower) with rfl | ha
  · exact List.mem_cons_self
  · obtain ⟨e, he, rfl⟩ := List.mem_map.mp ha
    have hlevel : e.level = n.level :=
      congrArg Tower.level (Option.some.inj ((h.entries e he).symm.trans htower))
    exact List.mem_cons_of_mem _ (mem_levelAddrs.mpr ⟨e, he, hlevel ▸ hi, rfl⟩)

theorem Represents.mem_levelAddrs_iff (h : Represents s es) {i : Nat} {a : Addr} :
    a ∈ levelAddrs es i ↔ a ≠ s.head ∧ ∃ n, s.heap a = some n ∧ i < n.level := by
  constructor
  · intro ha
    obtain ⟨e, he, hlevel, rfl⟩ := mem_levelAddrs.mp ha
    obtain ⟨n, hn, _, hlevel'⟩ := h.heap_entry he
    exact ⟨h.head_ne he, n, hn, hlevel' ▸ hlevel⟩
  · rintro ⟨hne, n, hn, hi⟩
    exact List.mem_of_ne_of_mem hne (h.mem_chain hn hi)

end Shape

end SkUtils.Containers.SkipListTowers
