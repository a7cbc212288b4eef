import Mathlib.Data.List.AList
import Mathlib.Order.Defs.LinearOrder
import SkUtils.Library.ParentForest

/-!
The generic `UnionFindSet<T>` of `unionfind_set.h`. Its keys are added one by one to the
map `parent`, and `find` throws on any other key. A call keeps what it has changed when
it throws.
-/

namespace SkUtils.Containers.UnionFindSetMap

open Relation
open SkUtils.Library.ParentForest

/-- `cnt` is an `int` of the source, which counts the classes of fewer than 2^31 keys. -/
structure UnionFindSet (T : Type) where
  cnt : Int
  parent : AList fun _ : T => T

inductive Failure (T : Type)
  | outOfRange (key : T)
  | endless
  deriving DecidableEq

abbrev Call (T α : Type) := ExceptT (Failure T) (StateM (UnionFindSet T)) α

variable {T α β : Type}

/-- What a call returns or throws, and the set that it leaves. -/
def exec (call : Call T α) (s : UnionFindSet T) : Except (Failure T) α × UnionFindSet T :=
  call.run.run s

section Code

variable [LinearOrder T]

def lesser (a b : T) : Bool :=
  a < b

def equal (a b : T) : Bool :=
  !lesser a b && !lesser b a

def empty : UnionFindSet T where
  cnt := 0
  parent := ∅

/-- `parent.emplace(key, val)`, with whether it inserted. -/
def emplace (key val : T) : Call T Bool := do
  let s ← get
  if key ∈ s.parent then
    return false
  else
    set { s with parent := s.parent.insert key val }
    return true

/-- The recursion of `find`, cut off at a depth of `fuel` calls. -/
def findFrom : Nat → T → Call T T
  | 0, _ => throw .endless
  | fuel + 1, key => do
      match (← get).parent.lookup key with
      | none => throw (.outOfRange key)
      | some p =>
          if equal p key then return key
          else findFrom fuel p

def find (key : T) : Call T T := do
  findFrom ((← get).parent.keys.length + 1) key

def connect (key1 key2 : T) : Call T Unit := do
  let r1 ← find key1
  let r2 ← find key2
  if !equal r1 r2 then
    modify fun s => { parent := s.parent.insert r1 r2, cnt := s.cnt - 1 }

def add (val : T) : Call T Unit := do
  if ← emplace val val then
    modify fun s => { s with cnt := s.cnt + 1 }

/-- `add(key, val)`. -/
def addPair (key val : T) : Call T Unit := do
  if ← emplace key key then
    modify fun s => { s with cnt := s.cnt + 1 }
  if ← emplace val val then
    modify fun s => { s with cnt := s.cnt + 1 }
  connect key val

inductive Operation (T : Type)
  | add (val : T)
  | addPair (key val : T)
  | connect (key1 key2 : T)
  | find (key : T)

def perform : Operation T → Call T Unit
  | .add val => add val
  | .addPair key val => addPair key val
  | .connect key1 key2 => connect key1 key2
  | .find key => do
      let _ ← find key

/-- The set after calls whose exceptions are caught. -/
def run (ops : List (Operation T)) : UnionFindSet T :=
  ops.foldl (fun s op => (exec (perform op) s).2) empty

end Code

section Exec

@[simp] theorem exec_pure (a : α) (s : UnionFindSet T) :
    exec (pure a : Call T α) s = (.ok a, s) := rfl

@[simp] theorem exec_get (s : UnionFindSet T) : exec (get : Call T _) s = (.ok s, s) := rfl

@[simp] theorem exec_modify (f : UnionFindSet T → UnionFindSet T) (s : UnionFindSet T) :
    exec (modify f : Call T _) s = (.ok ⟨⟩, f s) := rfl

theorem exec_bind (call : Call T α) (next : α → Call T β) (s : UnionFindSet T) :
    exec (call >>= next) s =
      match exec call s with
      | (.ok a, s') => exec (next a) s'
      | (.error e, s') => (.error e, s') := by
  simp only [exec, bind, ExceptT.run, ExceptT.bind, ExceptT.mk, StateT.run, StateT.bind]
  rcases call s with ⟨_ | _, s'⟩ <;> rfl

theorem exec_bind_ok {call : Call T α} {next : α → Call T β} {s s' : UnionFindSet T} {a : α}
    (h : exec call s = (.ok a, s')) : exec (call >>= next) s = exec (next a) s' := by
  rw [exec_bind, h]

theorem exec_bind_error {call : Call T α} {next : α → Call T β} {s s' : UnionFindSet T}
    {e : Failure T} (h : exec call s = (.error e, s')) :
    exec (call >>= next) s = (.error e, s') := by
  rw [exec_bind, h]

end Exec

section Forest

variable [LinearOrder T]

theorem equal_iff {a b : T} : equal a b = true ↔ a = b := by
  simpa [equal, lesser, and_comm] using le_antisymm_iff.symm

/-- The parents of all elements of `T`; one that is not a key is its own. -/
def parentFn (parent : AList fun _ : T => T) : T → T :=
  fun k => (parent.lookup k).getD k

theorem parentFn_of_notMem {parent : AList fun _ : T => T} {k : T} (h : k ∉ parent) :
    parentFn parent k = k := by
  rw [parentFn, AList.lookup_eq_none.mpr h]
  rfl

theorem parentFn_insert (parent : AList fun _ : T => T) (k v : T) :
    parentFn (parent.insert k v) = Function.update (parentFn parent) k v := by
  funext x
  rcases eq_or_ne x k with rfl | hxk
  · rw [parentFn, AList.lookup_insert, Function.update_self]
    rfl
  · rw [parentFn, AList.lookup_insert_ne hxk, Function.update_of_ne hxk]
    rfl

/-- A fuel beyond the depth of `key` is enough for `find` to return its root. -/
theorem findFrom_spec {s : UnionFindSet T}
    (hclosed : ∀ k, k ∈ s.parent → parentFn s.parent k ∈ s.parent) {fuel depth : Nat} {key r : T}
    (hkey : key ∈ s.parent) (hr : RootOf (parentFn s.parent) key r)
    (hdepth : (parentFn s.parent)^[depth] key = r) (hfuel : depth < fuel) :
    exec (findFrom fuel key) s = (.ok r, s) := by
  induction fuel generalizing key depth with
  | zero => omega
  | succ fuel ih =>
      obtain ⟨p, hp⟩ := Option.isSome_iff_exists.mp (AList.lookup_isSome.mpr hkey)
      have hparent : parentFn s.parent key = p := by rw [parentFn, hp, Option.getD_some]
      rw [findFrom, exec_bind_ok (exec_get s)]
      simp only [hp]
      by_cases hroot : p = key
      · have hrk : r = key := IsRoot.eq_of_rootOf (p := parentFn s.parent)
          (hparent.trans hroot) hr
        rw [if_pos (equal_iff.mpr hroot), hrk]
        rfl
      · rw [if_neg fun h => hroot (equal_iff.mp h)]
        cases depth with
        | zero =>
            have hkr : key = r := hdepth
            exact absurd (hparent.symm.trans (hkr ▸ hr.isRoot)) hroot
        | succ depth =>
            rw [← hparent]
            exact ih (hclosed key hkey) hr.parent hdepth (by omega)

theorem find_notMem {s : UnionFindSet T} {key : T} (h : key ∉ s.parent) :
    exec (find key) s = (.error (.outOfRange key), s) := by
  rw [find, exec_bind_ok (exec_get s), findFrom, exec_bind_ok (exec_get s)]
  simp only [AList.lookup_eq_none.mpr h]
  rfl

/-- The keys of `s` are closed under `parent` and fall into the trees of `rel`; `cnt`
counts the roots. -/
structure Invariant (s : UnionFindSet T) (rel : T → T → Prop) : Prop where
  closed : ∀ k, k ∈ s.parent → parentFn s.parent k ∈ s.parent
  represents : Represents (parentFn s.parent) rel
  cnt : s.cnt = Nat.card {r // r ∈ s.parent ∧ IsRoot (parentFn s.parent) r}

variable {s : UnionFindSet T} {rel : T → T → Prop}

theorem Invariant.root_mem (h : Invariant s rel) {k r : T} (hk : k ∈ s.parent)
    (hr : RootOf (parentFn s.parent) k r) : r ∈ s.parent := by
  induction hr with
  | root _ => exact hk
  | child _ ih => exact ih (h.closed _ hk)

theorem Invariant.find (h : Invariant s rel) {key : T} (hkey : key ∈ s.parent) :
    ∃ r, exec (find key) s = (.ok r, s) ∧ RootOf (parentFn s.parent) key r := by
  obtain ⟨r, hr⟩ := h.represents.forest key
  have houtside : ∀ x, x ∉ s.parent.keys.toFinset → IsRoot (parentFn s.parent) x := by
    intro x hx
    exact parentFn_of_notMem fun hmem => hx (List.mem_toFinset.mpr (AList.mem_keys.mp hmem))
  obtain ⟨depth, hle, hdepth⟩ := hr.depth_le_card houtside
  refine ⟨r, ?_, hr⟩
  rw [UnionFindSetMap.find, exec_bind_ok (exec_get s)]
  have hlength := List.toFinset_card_le s.parent.keys
  exact findFrom_spec h.closed hkey hr hdepth (by omega)

end Forest

section Steps

variable [LinearOrder T] {s : UnionFindSet T} {rel : T → T → Prop}

omit [LinearOrder T] in
theorem finite_keys [DecidableEq T] (parent : AList fun _ : T => T) : {k | k ∈ parent}.Finite :=
  parent.keys.finite_toSet

theorem mem_insert_of_mem {parent : AList fun _ : T => T} {k k' v : T} (h : k' ∈ parent) :
    k ∈ parent.insert k' v ↔ k ∈ parent :=
  (AList.mem_insert _).trans ⟨fun hk => hk.elim (fun hk => hk ▸ h) id, .inr⟩

theorem Invariant.congr {rel' : T → T → Prop} (h : Invariant s rel)
    (hrel : ∀ a b, rel a b ↔ rel' a b) : Invariant s rel' := by
  obtain rfl : rel = rel' := funext fun a => funext fun b => propext (hrel a b)
  exact h

theorem invariant_empty : Invariant (empty : UnionFindSet T) fun _ _ => False where
  closed := fun k hk => absurd hk (AList.notMem_empty k)
  represents := represents_id
  cnt := by
    have hnone : ∀ r, ¬ (r ∈ (empty : UnionFindSet T).parent ∧
        IsRoot (parentFn (empty : UnionFindSet T).parent) r) :=
      fun r hr => AList.notMem_empty r hr.1
    have hempty := Subtype.isEmpty_of_false hnone
    rw [Nat.card_of_isEmpty]
    rfl

theorem parentFn_insert_self {parent : AList fun _ : T => T} {k : T} (h : k ∉ parent) :
    parentFn (parent.insert k k) = parentFn parent := by
  rw [parentFn_insert]
  exact Function.update_eq_self_iff.mpr (parentFn_of_notMem h).symm

theorem Invariant.insert_key (h : Invariant s rel) {v : T} (hv : v ∉ s.parent) :
    Invariant { parent := s.parent.insert v v, cnt := s.cnt + 1 } rel := by
  have hsame := parentFn_insert_self hv
  refine ⟨fun k hk => ?_, hsame ▸ h.represents, ?_⟩
  · change parentFn (s.parent.insert v v) k ∈ s.parent.insert v v
    rw [hsame, AList.mem_insert]
    rcases (AList.mem_insert _).mp hk with rfl | hk
    · exact .inl (parentFn_of_notMem hv)
    · exact .inr (h.closed k hk)
  · have hcard := card_roots_insert (finite_keys s.parent) (parentFn_of_notMem hv) hv
    have hkeys : ∀ r, r ∈ s.parent.insert v v ↔ r ∈ insert v {k | k ∈ s.parent} :=
      fun r => AList.mem_insert _
    change s.cnt + 1 = (Nat.card {r // r ∈ s.parent.insert v v ∧
      IsRoot (parentFn (s.parent.insert v v)) r} : Int)
    rw [hsame, h.cnt]
    simp only [hkeys]
    exact_mod_cast hcard.symm

/-- `s'` has the keys of `s` and those of `new`. -/
def KeysAdded (s s' : UnionFindSet T) (new : T → Prop) : Prop :=
  ∀ k, k ∈ s'.parent ↔ k ∈ s.parent ∨ new k

theorem exec_emplace (key val : T) (s : UnionFindSet T) :
    exec (emplace key val) s =
      if key ∈ s.parent then (.ok false, s)
      else (.ok true, { s with parent := s.parent.insert key val }) := by
  rw [emplace, exec_bind_ok (exec_get s)]
  split <;> rfl

theorem exec_add (val : T) (s : UnionFindSet T) :
    exec (add val) s =
      (.ok ⟨⟩, if val ∈ s.parent then s
        else { parent := s.parent.insert val val, cnt := s.cnt + 1 }) := by
  by_cases hval : val ∈ s.parent <;>
    simp [add, exec_bind, exec_emplace, hval]

/-- The two halves of `addPair` that repeat `add`. -/
theorem exec_add_then (val : T) (next : Call T α) (s : UnionFindSet T) :
    exec (do
      if ← emplace val val then
        modify fun s => { s with cnt := s.cnt + 1 }
      next) s = exec (add val >>= fun _ => next) s := by
  by_cases hval : val ∈ s.parent <;>
    simp [exec_bind, exec_emplace, exec_add, hval]

theorem exec_addPair (key val : T) (s : UnionFindSet T) :
    exec (addPair key val) s =
      exec (add key >>= fun _ => add val >>= fun _ => connect key val) s := by
  rw [addPair, exec_add_then, exec_bind_ok (exec_add key s), exec_bind_ok (exec_add key s),
    exec_add_then]

theorem Invariant.add (h : Invariant s rel) (v : T) :
    ∃ s', exec (add v) s = (.ok ⟨⟩, s') ∧ Invariant s' rel ∧ KeysAdded s s' (· = v) := by
  refine ⟨_, exec_add v s, ?_, ?_⟩
  · split
    · exact h
    case isFalse hv => exact h.insert_key hv
  · intro k
    split
    case isTrue hv => exact ⟨.inl, fun hk => hk.elim id fun hkv => hkv ▸ hv⟩
    case isFalse hv => exact (AList.mem_insert _).trans or_comm

/-- `parent[ra] = rb` puts the tree of `a` below that of `b`. -/
theorem Invariant.link (h : Invariant s rel) {a b ra rb : T} (ha : a ∈ s.parent)
    (hb : b ∈ s.parent) (hra : RootOf (parentFn s.parent) a ra)
    (hrb : RootOf (parentFn s.parent) b rb) (hne : ra ≠ rb) :
    Invariant { parent := s.parent.insert ra rb, cnt := s.cnt - 1 } (join rel a b) := by
  have hramem := h.root_mem ha hra
  have hupdate := parentFn_insert s.parent ra rb
  have hkeys := fun k => mem_insert_of_mem (k := k) (v := rb) hramem
  refine ⟨fun k hk => ?_, ?_, ?_⟩
  · change parentFn (s.parent.insert ra rb) k ∈ s.parent.insert ra rb
    rw [hkeys, hupdate]
    rcases eq_or_ne k ra with rfl | hkra
    · rw [Function.update_self]
      exact h.root_mem hb hrb
    · rw [Function.update_of_ne hkra]
      exact h.closed k ((hkeys k).mp hk)
  · change Represents (parentFn (s.parent.insert ra rb)) (join rel a b)
    rw [hupdate]
    exact (h.represents.join_link hrb hra (Ne.symm hne)).congr fun _ _ => eqvGen_join_comm
  · have hcard := card_roots_link_in (finite_keys s.parent) hra.isRoot hramem (Ne.symm hne)
    change s.cnt - 1 = (Nat.card {r // r ∈ s.parent.insert ra rb ∧
      IsRoot (parentFn (s.parent.insert ra rb)) r} : Int)
    simp only [hkeys, hupdate]
    rw [h.cnt]
    simp only [Set.mem_ofPred_eq] at hcard
    omega

theorem Invariant.connect (h : Invariant s rel) {a b : T} (ha : a ∈ s.parent)
    (hb : b ∈ s.parent) :
    ∃ s', exec (connect a b) s = (.ok ⟨⟩, s') ∧ Invariant s' (join rel a b) ∧
      KeysAdded s s' fun _ => False := by
  obtain ⟨ra, hfind, hra⟩ := h.find ha
  obtain ⟨rb, hfind', hrb⟩ := h.find hb
  rw [UnionFindSetMap.connect, exec_bind_ok hfind, exec_bind_ok hfind']
  by_cases hsame : ra = rb
  · refine ⟨s, ?_, ⟨h.closed, h.represents.join_same hra (hsame ▸ hrb), h.cnt⟩,
      fun k => (or_iff_left id).symm⟩
    rw [equal_iff.mpr hsame]
    rfl
  · have hdistinct : equal ra rb = false := Bool.not_eq_true _ ▸ fun heq => hsame (equal_iff.mp heq)
    refine ⟨{ parent := s.parent.insert ra rb, cnt := s.cnt - 1 }, ?_, ?_, ?_⟩
    · rw [hdistinct]
      rfl
    · exact h.link ha hb hra hrb hsame
    · intro k
      rw [or_iff_left id]
      exact mem_insert_of_mem (h.root_mem ha hra)

theorem Invariant.connect_notMem (h : Invariant s rel) {a b : T}
    (hab : a ∉ s.parent ∨ b ∉ s.parent) :
    ∃ key, key ∉ s.parent ∧
      exec (UnionFindSetMap.connect a b) s = (.error (.outOfRange key), s) := by
  by_cases ha : a ∈ s.parent
  · have hb : b ∉ s.parent := hab.resolve_left (not_not.mpr ha)
    obtain ⟨ra, hfind, -⟩ := h.find ha
    refine ⟨b, hb, ?_⟩
    rw [UnionFindSetMap.connect, exec_bind_ok hfind]
    exact exec_bind_error (find_notMem hb)
  · exact ⟨a, ha, exec_bind_error (find_notMem ha)⟩

end Steps

end SkUtils.Containers.UnionFindSetMap
