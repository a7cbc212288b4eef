import Mathlib.Algebra.GroupWithZero.Nat
import Mathlib.Data.Fintype.Card
import Mathlib.Data.List.Nodup
import SkUtils.Library.CheckedLoop

/-!
`du` of `ducpp.cpp` on a file system whose directories are a graph: an entry leads through
symbolic links to a file or to any directory, or nowhere.
-/

namespace SkUtils.Ducpp.DiskUsage

open SkUtils.Library.CheckedLoop

/-- A path, or an entry of a directory: the symbolic links that are followed to resolve it
and the inode it leads to. -/
structure Entry (ι : Type) where
  links : Nat
  target : Option ι

inductive Node (ι : Type)
  | file (size : Nat)
  | directory (entries : List (Entry ι))

/-- `limit` bounds the symbolic links that may be followed for one path. -/
structure FileSystem (ι : Type) where
  node : ι → Node ι
  limit : Option Nat

/-- An exception, and a recursion that does not end. -/
inductive Failure
  | tooManyLinks
  | endless
deriving DecidableEq

variable {ι : Type}

/-- The path of the entry `e` below `path`. -/
def Entry.below (path e : Entry ι) : Entry ι :=
  { links := path.links + e.links, target := e.target }

/-- `fs::exists` throws where the links of a path are too many. -/
def FileSystem.exceeds (fs : FileSystem ι) (path : Entry ι) : Bool :=
  fs.limit.any (· < path.links)

/-- `sz += size` on a `size_t`. -/
def add (sz size : Nat) : Nat :=
  (sz + size) % 2 ^ 64

/-- `du`, cut off at a depth of `fuel`. -/
def du (fs : FileSystem ι) : Nat → Entry ι → Except Failure Nat
  | 0, _ => throw .endless
  | fuel + 1, path =>
      if fs.exceeds path then throw .tooManyLinks
      else
        match path.target.map fs.node with
        | none => return 0
        | some (.directory entries) =>
            entries.foldlM (fun sz e => do return add sz (← du fs fuel (path.below e))) 0
        | some (.file size) => return add 0 size

/-- The files whose `file_size` is added, in order. -/
def counted (fs : FileSystem ι) : Nat → Entry ι → List ι
  | 0, _ => []
  | fuel + 1, path =>
      match path.target with
      | none => []
      | some i =>
          match fs.node i with
          | .directory entries => entries.flatMap fun e => counted fs fuel (path.below e)
          | .file _ => [i]

def size (fs : FileSystem ι) (i : ι) : Nat :=
  match fs.node i with
  | .file size => size
  | .directory _ => 0

/-- Where a route leads that goes down by the given positions in the directories. -/
def follow (fs : FileSystem ι) : Entry ι → List Nat → Option (Entry ι)
  | path, [] => some path
  | path, position :: route =>
      match path.target.map fs.node with
      | some (.directory entries) =>
          entries[position]?.bind fun e => follow fs (path.below e) route
      | _ => none

/-- Every route from the path ends within `fuel` steps and follows no more links than
allowed. -/
def Fits (fs : FileSystem ι) (fuel : Nat) (path : Entry ι) : Prop :=
  ∀ route e, follow fs path route = some e → route.length < fuel ∧ fs.exceeds e = false

section Sums

variable {α : Type} {f : α → Except Failure Nat} {as : List α}

theorem foldlM_add {g : α → Nat} (h : ∀ a ∈ as, f a = .ok (g a % 2 ^ 64)) (sz : Nat) :
    as.foldlM (fun sz a => do return add sz (← f a)) (sz % 2 ^ 64) =
      .ok ((sz + (as.map g).sum) % 2 ^ 64) := by
  induction as generalizing sz with
  | nil => rfl
  | cons a as ih =>
      obtain ⟨hfirst, hrest⟩ := List.forall_mem_cons.mp h
      have hadd : add (sz % 2 ^ 64) (g a % 2 ^ 64) = (sz + g a) % 2 ^ 64 := by
        unfold add
        omega
      rw [List.foldlM_cons, hfirst, ok_bind, hadd, List.map_cons, List.sum_cons, ← Nat.add_assoc]
      exact ih hrest (sz + g a)

end Sums

section Routes

variable {fs : FileSystem ι} {path : Entry ι} {entries : List (Entry ι)}

theorem follow_directory (h : path.target.map fs.node = some (.directory entries))
    (position : Nat) (route : List Nat) :
    follow fs path (position :: route) =
      entries[position]?.bind fun e => follow fs (path.below e) route := by
  rw [follow, h]

theorem follow_entry (h : path.target.map fs.node = some (.directory entries)) {position : Nat}
    {e last : Entry ι} {route : List Nat} (he : entries[position]? = some e) :
    follow fs path (position :: route) = some last ↔
      follow fs (path.below e) route = some last := by
  rw [follow_directory h, he, Option.bind_some]

theorem Fits.entry {fuel : Nat} (hfits : Fits fs (fuel + 1) path)
    (h : path.target.map fs.node = some (.directory entries)) :
    ∀ e ∈ entries, Fits fs fuel (path.below e) := by
  intro e he route last hroute
  obtain ⟨position, hposition⟩ := List.mem_iff_getElem?.mp he
  have hlonger := hfits (position :: route) last ((follow_entry h hposition).mpr hroute)
  exact ⟨Nat.lt_of_succ_lt_succ hlonger.1, hlonger.2⟩

theorem fits_directory {fuel : Nat} (hpath : fs.exceeds path = false)
    (h : path.target.map fs.node = some (.directory entries))
    (hentries : ∀ e ∈ entries, Fits fs fuel (path.below e)) : Fits fs (fuel + 1) path := by
  intro route last hroute
  cases route with
  | nil =>
      obtain rfl := Option.some.inj hroute
      exact ⟨Nat.succ_pos fuel, hpath⟩
  | cons position route =>
      rw [follow_directory h] at hroute
      obtain ⟨e, he, hrest⟩ := Option.bind_eq_some_iff.mp hroute
      obtain ⟨hlength, hlinks⟩ := hentries e (List.mem_of_getElem? he) route last hrest
      exact ⟨Nat.succ_lt_succ hlength, hlinks⟩

theorem fits_leaf {fuel : Nat} (hpath : fs.exceeds path = false)
    (h : ∀ entries, path.target.map fs.node ≠ some (.directory entries)) :
    Fits fs (fuel + 1) path := by
  intro route last hroute
  cases route with
  | nil =>
      obtain rfl := Option.some.inj hroute
      exact ⟨Nat.succ_pos fuel, hpath⟩
  | cons position route =>
      unfold follow at hroute
      split at hroute
      · next hdirectory => exact absurd hdirectory (h _)
      · cases hroute

theorem Fits.self {fuel : Nat} (h : Fits fs fuel path) :
    0 < fuel ∧ fs.exceeds path = false :=
  h [] path rfl

/-- What a path leads to. -/
theorem target_cases (fs : FileSystem ι) (path : Entry ι) :
    path.target = none ∨ (∃ i size, path.target = some i ∧ fs.node i = .file size) ∨
      ∃ entries, path.target.map fs.node = some (.directory entries) := by
  cases htarget : path.target with
  | none => exact .inl rfl
  | some i =>
      cases hnode : fs.node i with
      | file size => exact .inr (.inl ⟨i, size, rfl, hnode⟩)
      | directory entries => exact .inr (.inr ⟨entries, by rw [Option.map_some, hnode]⟩)

theorem counted_directory (h : path.target.map fs.node = some (.directory entries))
    (fuel : Nat) :
    counted fs (fuel + 1) path = entries.flatMap fun e => counted fs fuel (path.below e) := by
  obtain ⟨i, htarget, hnode⟩ := Option.map_eq_some_iff.mp h
  rw [counted, htarget]
  simp only [hnode]

theorem counted_file {i : ι} {size : Nat} (htarget : path.target = some i)
    (hnode : fs.node i = .file size) (fuel : Nat) : counted fs (fuel + 1) path = [i] := by
  rw [counted, htarget]
  simp only [hnode]

theorem counted_missing (htarget : path.target = none) (fuel : Nat) :
    counted fs (fuel + 1) path = [] := by
  rw [counted, htarget]

theorem du_of_fits {fuel : Nat} (h : Fits fs fuel path) :
    du fs fuel path = .ok (((counted fs fuel path).map (size fs)).sum % 2 ^ 64) := by
  induction fuel generalizing path with
  | zero => exact absurd h.self.1 (Nat.lt_irrefl 0)
  | succ fuel ih =>
      rw [du, h.self.2]
      rcases target_cases fs path with hnone | ⟨i, bytes, htarget, hnode⟩ | ⟨entries, hentries⟩
      · rw [counted_missing hnone, hnone]
        rfl
      · rw [counted_file htarget hnode, htarget, Option.map_some, hnode]
        simp [size, hnode, add]
      · rw [counted_directory hentries, hentries]
        have hsum := foldlM_add (fun e he => ih (h.entry hentries e he)) 0
        rw [Nat.zero_mod, Nat.zero_add] at hsum
        simpa [List.map_flatMap, List.flatMap, Function.comp_def] using hsum

theorem fits_of_du {fuel n : Nat} (h : du fs fuel path = .ok n) : Fits fs fuel path := by
  induction fuel generalizing path n with
  | zero => cases h
  | succ fuel ih =>
      rw [du] at h
      by_cases hpath : fs.exceeds path = true
      · rw [if_pos hpath] at h
        cases h
      · rw [if_neg hpath] at h
        rw [Bool.not_eq_true] at hpath
        rcases target_cases fs path with hnone | ⟨i, bytes, htarget, hnode⟩ | ⟨entries, hentries⟩
        · exact fits_leaf hpath fun entries => by simp [hnone]
        · exact fits_leaf hpath fun entries => by simp [htarget, hnode]
        · rw [hentries] at h
          refine fits_directory hpath hentries fun e he => ?_
          obtain ⟨_, _, hround⟩ := ok_of_foldlM_ok h e he
          obtain ⟨m, hm, -⟩ := bind_eq_ok.mp hround
          exact ih hm

/-- The route leads from the path to the regular file `i`. -/
def Ends (fs : FileSystem ι) (path : Entry ι) (route : List Nat) (i : ι) : Prop :=
  ∃ e bytes, follow fs path route = some e ∧ e.target = some i ∧ fs.node i = .file bytes

theorem ends_cons (h : path.target.map fs.node = some (.directory entries)) {position : Nat}
    {route : List Nat} {i : ι} :
    Ends fs path (position :: route) i ↔
      ∃ e, entries[position]? = some e ∧ Ends fs (path.below e) route i := by
  unfold Ends
  rw [follow_directory h]
  constructor
  · rintro ⟨last, bytes, hroute, htarget, hnode⟩
    obtain ⟨e, he, hrest⟩ := Option.bind_eq_some_iff.mp hroute
    exact ⟨e, he, last, bytes, hrest, htarget, hnode⟩
  · rintro ⟨e, he, last, bytes, hrest, htarget, hnode⟩
    exact ⟨last, bytes, Option.bind_eq_some_iff.mpr ⟨e, he, hrest⟩, htarget, hnode⟩

theorem exists_cons_of_ends (h : path.target.map fs.node = some (.directory entries))
    {route : List Nat} {i : ι} (hends : Ends fs path route i) :
    ∃ position rest, route = position :: rest := by
  cases route with
  | cons position rest => exact ⟨position, rest, rfl⟩
  | nil =>
      obtain ⟨e, bytes, hroute, htarget, hnode⟩ := hends
      obtain rfl := Option.some.inj hroute
      rw [htarget, Option.map_some, hnode] at h
      cases h

theorem ends_file {i j : ι} {bytes : Nat} {route : List Nat} (htarget : path.target = some i)
    (hnode : fs.node i = .file bytes) : Ends fs path route j ↔ route = [] ∧ i = j := by
  constructor
  · rintro ⟨e, bytes', hroute, he, hfile⟩
    cases route with
    | nil =>
        obtain rfl := Option.some.inj hroute
        exact ⟨rfl, Option.some.inj (htarget.symm.trans he)⟩
    | cons position rest => simp [follow, htarget, hnode] at hroute
  · rintro ⟨rfl, rfl⟩
    exact ⟨path, bytes, rfl, htarget, hnode⟩

theorem not_ends_missing {i : ι} {route : List Nat} (htarget : path.target = none) :
    ¬ Ends fs path route i := by
  rintro ⟨e, bytes, hroute, he, -⟩
  cases route with
  | nil =>
      obtain rfl := Option.some.inj hroute
      rw [htarget] at he
      cases he
  | cons position rest => simp [follow, htarget] at hroute

theorem mem_counted {fuel : Nat} (hfits : Fits fs fuel path) {i : ι} :
    i ∈ counted fs fuel path ↔ ∃ route, Ends fs path route i := by
  induction fuel generalizing path with
  | zero => exact absurd hfits.self.1 (Nat.lt_irrefl 0)
  | succ fuel ih =>
      rcases target_cases fs path with hnone | ⟨j, bytes, htarget, hnode⟩ | ⟨entries, hentries⟩
      · rw [counted_missing hnone]
        exact iff_of_false List.not_mem_nil fun ⟨_, hends⟩ => not_ends_missing hnone hends
      · rw [counted_file htarget hnode, List.mem_singleton]
        simp only [ends_file htarget hnode, exists_eq_left]
        exact eq_comm
      · rw [counted_directory hentries, List.mem_flatMap]
        constructor
        · rintro ⟨e, he, hmem⟩
          obtain ⟨route, hroute⟩ := (ih (hfits.entry hentries e he)).mp hmem
          obtain ⟨position, hposition⟩ := List.mem_iff_getElem?.mp he
          exact ⟨position :: route, (ends_cons hentries).mpr ⟨e, hposition, hroute⟩⟩
        · rintro ⟨route, hroute⟩
          obtain ⟨position, rest, rfl⟩ := exists_cons_of_ends hentries hroute
          obtain ⟨e, hposition, hrest⟩ := (ends_cons hentries).mp hroute
          have he := List.mem_of_getElem? hposition
          exact ⟨e, he, (ih (hfits.entry hentries e he)).mpr ⟨rest, hrest⟩⟩

/-- No regular file is at the end of two routes. -/
def SingleRoutes (fs : FileSystem ι) (path : Entry ι) : Prop :=
  ∀ route route' i, Ends fs path route i → Ends fs path route' i → route = route'

theorem singleRoutes_directory (h : path.target.map fs.node = some (.directory entries)) :
    SingleRoutes fs path ↔
      (∀ e ∈ entries, SingleRoutes fs (path.below e)) ∧
        entries.Pairwise fun e e' => ∀ route route' i, Ends fs (path.below e) route i →
          ¬ Ends fs (path.below e') route' i := by
  constructor
  · intro hsingle
    constructor
    · intro e he route route' i hroute hroute'
      obtain ⟨position, hposition⟩ := List.mem_iff_getElem?.mp he
      have hsame := hsingle (position :: route) (position :: route') i
        ((ends_cons h).mpr ⟨e, hposition, hroute⟩) ((ends_cons h).mpr ⟨e, hposition, hroute'⟩)
      exact (List.cons.inj hsame).2
    · rw [List.pairwise_iff_getElem]
      intro a b ha hb hlt route route' i hroute hroute'
      have hsame := hsingle (a :: route) (b :: route') i
        ((ends_cons h).mpr ⟨_, List.getElem?_eq_getElem ha, hroute⟩)
        ((ends_cons h).mpr ⟨_, List.getElem?_eq_getElem hb, hroute'⟩)
      exact Nat.ne_of_lt hlt (List.cons.inj hsame).1
  · rintro ⟨hchildren, hapart⟩ route route' i hroute hroute'
    rw [List.pairwise_iff_getElem] at hapart
    obtain ⟨a, rest, rfl⟩ := exists_cons_of_ends h hroute
    obtain ⟨b, rest', rfl⟩ := exists_cons_of_ends h hroute'
    obtain ⟨e, he, hrest⟩ := (ends_cons h).mp hroute
    obtain ⟨e', he', hrest'⟩ := (ends_cons h).mp hroute'
    obtain ⟨ha, rfl⟩ := List.getElem?_eq_some_iff.mp he
    obtain ⟨hb, rfl⟩ := List.getElem?_eq_some_iff.mp he'
    rcases Nat.lt_trichotomy a b with hlt | rfl | hlt
    · exact absurd hrest' (hapart a b ha hb hlt rest rest' i hrest)
    · rw [hchildren _ (List.getElem_mem ha) rest rest' i hrest hrest']
    · exact absurd hrest (hapart b a hb ha hlt rest' rest i hrest')

theorem nodup_counted {fuel : Nat} (hfits : Fits fs fuel path) :
    (counted fs fuel path).Nodup ↔ SingleRoutes fs path := by
  induction fuel generalizing path with
  | zero => exact absurd hfits.self.1 (Nat.lt_irrefl 0)
  | succ fuel ih =>
      rcases target_cases fs path with hnone | ⟨j, bytes, htarget, hnode⟩ | ⟨entries, hentries⟩
      · rw [counted_missing hnone]
        exact iff_of_true List.nodup_nil fun _ _ _ hends => absurd hends (not_ends_missing hnone)
      · rw [counted_file htarget hnode]
        refine iff_of_true (List.nodup_singleton j) fun route route' i hroute hroute' => ?_
        rw [((ends_file htarget hnode).mp hroute).1, ((ends_file htarget hnode).mp hroute').1]
      · have hchild := hfits.entry hentries
        rw [counted_directory hentries, List.nodup_flatMap, singleRoutes_directory hentries]
        refine and_congr (forall₂_congr fun e he => ih (hchild e he)) ?_
        refine List.Pairwise.iff_of_mem fun he he' => ?_
        simp only [Function.onFun, List.Disjoint, mem_counted (hchild _ he),
          mem_counted (hchild _ he')]
        constructor
        · intro hdisjoint route route' i hroute hroute'
          exact hdisjoint ⟨route, hroute⟩ ⟨route', hroute'⟩
        · rintro hapart i ⟨route, hroute⟩ ⟨route', hroute'⟩
          exact hapart route route' i hroute hroute'

end Routes

section Lengths

variable {fs : FileSystem ι} {path : Entry ι}

theorem follow_append (route route' : List Nat) :
    follow fs path (route ++ route') =
      (follow fs path route).bind fun e => follow fs e route' := by
  induction route generalizing path with
  | nil => rfl
  | cons position route ih =>
      rcases hnode : path.target.map fs.node with _ | ⟨size⟩ | ⟨entries⟩
      · simp [follow, hnode]
      · simp [follow, hnode]
      · rw [List.cons_append, follow_directory hnode, follow_directory hnode]
        cases entries[position]? with
        | none => rfl
        | some e => exact ih

theorem exists_target {position : Nat} {route : List Nat}
    (h : (follow fs path (position :: route)).isSome = true) : ∃ i, path.target = some i := by
  cases htarget : path.target with
  | some i => exact ⟨i, rfl⟩
  | none => simp [follow, htarget] at h

/-- Which routes there are depends on the inode and not on how it was reached. -/
theorem follow_isSome_congr {path' : Entry ι} (h : path.target = path'.target)
    (route : List Nat) : (follow fs path route).isSome = (follow fs path' route).isSome := by
  induction route generalizing path path' with
  | nil => rfl
  | cons position route ih =>
      unfold follow
      rw [h]
      split
      · next entries _ =>
          cases hentry : entries[position]? with
          | none => rfl
          | some e => exact ih rfl
      · rfl

/-- No route comes back to an inode that it has passed. -/
def NeverReturns (fs : FileSystem ι) (path : Entry ι) : Prop :=
  ∀ route route' e e' i, follow fs path route = some e →
    follow fs path (route ++ route') = some e' →
      e.target = some i → e'.target = some i → route' = []

def WithinLimit (fs : FileSystem ι) (path : Entry ι) : Prop :=
  ∀ route e, follow fs path route = some e → fs.exceeds e = false

theorem NeverReturns.length_le [Fintype ι] (h : NeverReturns fs path) {route : List Nat}
    {last : Entry ι} (hroute : follow fs path route = some last) :
    route.length ≤ Fintype.card ι := by
  have hpassed : ∀ k : Fin route.length, ∃ i e,
      follow fs path (route.take k) = some e ∧ e.target = some i := by
    intro k
    have hsplit : follow fs path (route.take k ++ route.drop k) = some last := by
      rw [List.take_append_drop, hroute]
    rw [follow_append] at hsplit
    obtain ⟨e, he, hrest⟩ := Option.bind_eq_some_iff.mp hsplit
    rw [List.drop_eq_getElem_cons k.isLt] at hrest
    obtain ⟨i, hi⟩ := exists_target (Option.isSome_of_mem hrest)
    exact ⟨i, e, he, hi⟩
  choose passed e he htarget using hpassed
  have hinjective : Function.Injective passed := by
    have hlt : ∀ a b : Fin route.length, a < b → passed a ≠ passed b := by
      intro a b hab heq
      have hsplit : route.take b = route.take a ++ (route.take b).drop a := by
        have hparts := List.take_append_drop (a : Nat) (route.take b)
        rw [List.take_take, Nat.min_eq_left hab.le] at hparts
        exact hparts.symm
      have hempty := h (route.take a) ((route.take b).drop a) (e a) (e b) (passed a) (he a)
        (hsplit ▸ he b) (htarget a) (heq ▸ htarget b)
      have hlength := congrArg List.length hempty
      rw [List.length_drop, List.length_take, Nat.min_eq_left b.isLt.le] at hlength
      have : (a : Nat) < b := hab
      simp at hlength
      omega
    intro a b heq
    rcases lt_trichotomy a b with hab | hab | hab
    · exact absurd heq (hlt a b hab)
    · exact hab
    · exact absurd heq.symm (hlt b a hab)
  have := Fintype.card_le_of_injective passed hinjective
  rwa [Fintype.card_fin] at this

theorem not_bounded_of_return {e e' : Entry ι} {round : List Nat} (hround : round ≠ [])
    (h : follow fs e round = some e') (hback : e'.target = e.target) (bound : Nat) :
    ¬ ∀ route, (follow fs e route).isSome = true → route.length < bound := by
  induction bound with
  | zero => exact fun hbound => absurd (hbound [] rfl) (Nat.lt_irrefl 0)
  | succ bound ih =>
      intro hbound
      refine ih fun route hroute => ?_
      have hlonger : (follow fs e (round ++ route)).isSome = true := by
        rw [follow_append, h, Option.bind_some, follow_isSome_congr hback]
        exact hroute
      have hlength := hbound (round ++ route) hlonger
      have hpos := List.length_pos_iff.mpr hround
      rw [List.length_append] at hlength
      omega

theorem neverReturns_of_fits {fuel : Nat} (h : Fits fs fuel path) : NeverReturns fs path := by
  intro route route' e e' i hroute hlonger htarget hback
  rw [follow_append, hroute, Option.bind_some] at hlonger
  by_contra hround
  refine not_bounded_of_return hround hlonger (hback.trans htarget.symm) fuel fun rest hrest => ?_
  obtain ⟨last, hlast⟩ := Option.isSome_iff_exists.mp hrest
  have hwhole : follow fs path (route ++ rest) = some last := by
    rw [follow_append, hroute, Option.bind_some, hlast]
  have hlength := (h _ _ hwhole).1
  rw [List.length_append] at hlength
  omega

theorem exists_fits_iff [Fintype ι] :
    (∃ fuel, Fits fs fuel path) ↔ NeverReturns fs path ∧ WithinLimit fs path := by
  constructor
  · rintro ⟨fuel, hfits⟩
    exact ⟨neverReturns_of_fits hfits, fun route e hroute => (hfits route e hroute).2⟩
  · rintro ⟨hreturns, hlimit⟩
    refine ⟨Fintype.card ι + 1, fun route e hroute => ⟨?_, hlimit route e hroute⟩⟩
    exact Nat.lt_succ_of_le (hreturns.length_le hroute)

end Lengths

section Totals

variable {fs : FileSystem ι} {path : Entry ι}

/-- `du` ends with the sum of the sizes it adds, and adds the size of no file twice. -/
def CountsOnce (fs : FileSystem ι) (fuel : Nat) (path : Entry ι) : Prop :=
  (counted fs fuel path).Nodup ∧
    du fs fuel path = .ok ((counted fs fuel path).map (size fs)).sum

/-- Regular files at the ends of routes have less than 2^64 bytes together. -/
def SumsFit (fs : FileSystem ι) (path : Entry ι) : Prop :=
  ∀ files : List ι, files.Nodup → (∀ i ∈ files, ∃ route, Ends fs path route i) →
    (files.map (size fs)).sum < 2 ^ 64

theorem sum_le_of_subset {files files' : List ι} (hnodup : files.Nodup) (h : files ⊆ files')
    (f : ι → Nat) : (files.map f).sum ≤ (files'.map f).sum := by
  obtain ⟨part, hperm, hsub⟩ := hnodup.subperm h
  obtain ⟨rest, hrest⟩ := hsub.exists_perm_append
  have hall : (files'.map f).sum = (part.map f).sum + (rest.map f).sum := by
    rw [(hrest.map f).sum_nat, List.map_append, List.sum_append_nat]
  rw [hall, ← (hperm.map f).sum_nat]
  exact Nat.le_add_right _ _

theorem exists_countsOnce_iff [Fintype ι] :
    (∃ fuel, CountsOnce fs fuel path) ↔
      NeverReturns fs path ∧ WithinLimit fs path ∧ SingleRoutes fs path ∧ SumsFit fs path := by
  constructor
  · rintro ⟨fuel, hnodup, hdu⟩
    have hfits := fits_of_du hdu
    obtain ⟨hreturns, hlimit⟩ := exists_fits_iff.mp ⟨_, hfits⟩
    refine ⟨hreturns, hlimit, (nodup_counted hfits).mp hnodup, fun files hfiles hends => ?_⟩
    have hsum : ((counted fs fuel path).map (size fs)).sum < 2 ^ 64 := by
      rw [du_of_fits hfits] at hdu
      rw [← Except.ok.inj hdu]
      exact Nat.mod_lt _ (by decide)
    have hsubset : files ⊆ counted fs fuel path := fun i hi =>
      (mem_counted hfits).mpr (hends i hi)
    exact Nat.lt_of_le_of_lt (sum_le_of_subset hfiles hsubset (size fs)) hsum
  · rintro ⟨hreturns, hlimit, hsingle, hsum⟩
    obtain ⟨fuel, hfits⟩ := exists_fits_iff.mpr ⟨hreturns, hlimit⟩
    have hnodup := (nodup_counted hfits).mpr hsingle
    have hsmall := hsum _ hnodup fun i hi => (mem_counted hfits).mp hi
    have hdu := du_of_fits hfits
    rw [Nat.mod_eq_of_lt hsmall] at hdu
    exact ⟨fuel, hnodup, hdu⟩

end Totals

end SkUtils.Ducpp.DiskUsage
