import Mathlib.Data.List.Nodup
import Mathlib.Logic.Function.Basic

/-!
Null-terminated chains of a successor function, the two pointer updates that splice an
element into a chain and out of it, and those that turn a chain around.
-/

namespace SkUtils.Library.LinkedChain

variable {α : Type*}

/-- Following `next` from `a` visits the elements of the list and then ends. -/
def Chain (next : α → Option α) : α → List α → Prop
  | a, [] => next a = none
  | a, b :: bs => next a = some b ∧ Chain next b bs

/-- The element of `a :: bs` with nothing behind it. -/
def last : α → List α → α
  | a, [] => a
  | _, b :: bs => last b bs

theorem last_mem (a : α) (bs : List α) : last a bs ∈ a :: bs := by
  induction bs generalizing a with
  | nil => exact List.mem_singleton_self a
  | cons b bs ih => exact List.mem_cons_of_mem a (ih b)

theorem last_append (a : α) (bs cs : List α) : last a (bs ++ cs) = last (last a bs) cs := by
  induction bs generalizing a with
  | nil => rfl
  | cons b bs ih => exact ih b

theorem exists_append_of_mem {a b : α} {bs : List α} (h : b ∈ a :: bs) :
    ∃ cs ds, bs = cs ++ ds ∧ last a cs = b := by
  induction bs generalizing a with
  | nil => exact ⟨[], [], rfl, (List.mem_singleton.mp h).symm⟩
  | cons c bs ih =>
      rcases List.mem_cons.mp h with rfl | h
      · exact ⟨[], c :: bs, rfl, rfl⟩
      · obtain ⟨cs, ds, rfl, hlast⟩ := ih h
        exact ⟨c :: cs, ds, rfl, hlast⟩

section Follow

variable {next next' : α → Option α}

theorem Chain.congr {a : α} {bs : List α} (h : Chain next a bs)
    (hnext : ∀ b ∈ a :: bs, next' b = next b) : Chain next' a bs := by
  induction bs generalizing a with
  | nil => exact (hnext a List.mem_cons_self).trans h
  | cons b bs ih =>
      constructor
      · exact (hnext a List.mem_cons_self).trans h.1
      · exact ih h.2 fun c hc => hnext c (List.mem_cons_of_mem a hc)

theorem Chain.drop {a : α} {bs cs : List α} (h : Chain next a (bs ++ cs)) :
    Chain next (last a bs) cs := by
  induction bs generalizing a with
  | nil => exact h
  | cons b bs ih => exact ih h.2

theorem Chain.unique {a : α} {bs cs : List α} (hb : Chain next a bs)
    (hc : Chain next a cs) : bs = cs := by
  induction bs generalizing a cs with
  | nil =>
      cases cs with
      | nil => rfl
      | cons c cs => cases hb.symm.trans hc.1
  | cons b bs ih =>
      cases cs with
      | nil => cases hc.symm.trans hb.1
      | cons c cs =>
          obtain rfl : b = c := Option.some.inj (hb.1.symm.trans hc.1)
          rw [ih hb.2 hc.2]

theorem Chain.next_mem {a b c : α} {bs : List α} (h : Chain next a bs)
    (hb : b ∈ a :: bs) (hc : next b = some c) : c ∈ bs := by
  induction bs generalizing a with
  | nil =>
      obtain rfl := List.mem_singleton.mp hb
      cases hc.symm.trans h
  | cons d bs ih =>
      rcases List.mem_cons.mp hb with rfl | hb
      · obtain rfl : d = c := Option.some.inj (h.1.symm.trans hc)
        exact List.mem_cons_self
      · exact List.mem_cons_of_mem d (ih h.2 hb)

/-- A chain ends, so that it comes to no element twice. -/
theorem Chain.nodup {a : α} {bs : List α} (h : Chain next a bs) : (a :: bs).Nodup := by
  induction bs generalizing a with
  | nil => exact List.nodup_singleton a
  | cons b bs ih =>
      refine List.nodup_cons.mpr ⟨?_, ih h.2⟩
      intro hmem
      obtain ⟨cs, ds, rfl, hlast⟩ := exists_append_of_mem hmem
      have hrest := h.2.drop
      rw [hlast] at hrest
      have hlength := congrArg List.length (hrest.unique h)
      rw [List.length_cons, List.length_append] at hlength
      omega

end Follow

section Splice

variable [DecidableEq α] {next : α → Option α}

/-- `n` takes the successor of `p`, and `p` points to `n`. -/
def link (next : α → Option α) (p n : α) : α → Option α :=
  Function.update (Function.update next n (next p)) p (some n)

/-- `p` takes the successor of `n`, and `n` points nowhere. -/
def unlink (next : α → Option α) (p n : α) : α → Option α :=
  Function.update (Function.update next p (next n)) n none

theorem link_of_ne {p n b : α} (hn : b ≠ n) (hp : b ≠ p) : link next p n b = next b := by
  rw [link, Function.update_of_ne hp, Function.update_of_ne hn]

theorem unlink_of_ne {p n b : α} (hn : b ≠ n) (hp : b ≠ p) :
    unlink next p n b = next b := by
  rw [unlink, Function.update_of_ne hn, Function.update_of_ne hp]

theorem Chain.link {a n : α} {bs cs : List α} (h : Chain next a (bs ++ cs))
    (hnodup : (a :: (bs ++ cs)).Nodup) (hn : n ∉ a :: (bs ++ cs)) :
    Chain (link next (last a bs) n) a (bs ++ n :: cs) := by
  induction bs generalizing a with
  | nil =>
      have hna : n ≠ a := List.ne_of_not_mem_cons hn
      have hlink : LinkedChain.link next a n n = next a := by
        rw [LinkedChain.link, Function.update_of_ne hna, Function.update_self]
      have hrest : ∀ b ∈ cs, LinkedChain.link next a n b = next b := by
        intro b hb
        apply link_of_ne
        · rintro rfl
          exact hn (List.mem_cons_of_mem a hb)
        · rintro rfl
          exact (List.nodup_cons.mp hnodup).1 hb
      refine ⟨Function.update_self .., ?_⟩
      cases cs with
      | nil => exact hlink.trans h
      | cons c cs => exact ⟨hlink.trans h.1, h.2.congr hrest⟩
  | cons b bs ih =>
      have htail := (List.nodup_cons.mp hnodup).2
      have hp := last_mem b bs
      refine ⟨?_, ih h.2 htail fun hmem => hn (List.mem_cons_of_mem a hmem)⟩
      rw [link_of_ne]
      · exact h.1
      · rintro rfl
        exact hn List.mem_cons_self
      · intro heq
        apply (List.nodup_cons.mp hnodup).1
        rw [heq]
        exact List.mem_append_left cs hp

theorem Chain.unlink {a n : α} {bs cs : List α} (h : Chain next a (bs ++ n :: cs))
    (hnodup : (a :: (bs ++ n :: cs)).Nodup) :
    Chain (unlink next (last a bs) n) a (bs ++ cs) := by
  induction bs generalizing a with
  | nil =>
      have hna : a ≠ n := by
        rintro rfl
        exact (List.nodup_cons.mp hnodup).1 List.mem_cons_self
      have hunlink : LinkedChain.unlink next a n a = next n := by
        rw [LinkedChain.unlink, Function.update_of_ne hna, Function.update_self]
      have hrest : ∀ b ∈ cs, LinkedChain.unlink next a n b = next b := by
        intro b hb
        obtain ⟨ha, htail⟩ := List.nodup_cons.mp hnodup
        apply unlink_of_ne
        · rintro rfl
          exact (List.nodup_cons.mp htail).1 hb
        · rintro rfl
          exact ha (List.mem_cons_of_mem n hb)
      cases cs with
      | nil => exact hunlink.trans h.2
      | cons c cs => exact ⟨hunlink.trans h.2.1, h.2.2.congr hrest⟩
  | cons b bs ih =>
      obtain ⟨ha, htail⟩ := List.nodup_cons.mp hnodup
      refine ⟨?_, ih h.2 htail⟩
      rw [unlink_of_ne]
      · exact h.1
      · rintro rfl
        exact ha (List.mem_append_right (b :: bs) List.mem_cons_self)
      · intro heq
        apply ha
        rw [heq]
        exact List.mem_append_left (n :: cs) (last_mem b bs)

end Splice

section Turn

variable {next next' : α → Option α}

/-- The elements of the list are a chain. -/
def Linked (next : α → Option α) : List α → Prop
  | [] => True
  | a :: as => Chain next a as

theorem Linked.nodup {as : List α} (h : Linked next as) : as.Nodup := by
  cases as with
  | nil => exact .nil
  | cons a as => exact Chain.nodup h

theorem Linked.tail {a : α} {as : List α} (h : Linked next (a :: as)) : Linked next as := by
  cases as with
  | nil => trivial
  | cons b as => exact h.2

theorem Linked.congr {as : List α} (h : Linked next as) (hnext : ∀ a ∈ as, next' a = next a) :
    Linked next' as := by
  cases as with
  | nil => trivial
  | cons a as => exact Chain.congr h hnext

/-- A chain tells where its elements point. -/
theorem Linked.next_eq {as : List α} (h : Linked next as) (h' : Linked next' as) :
    ∀ a ∈ as, next' a = next a := by
  induction as with
  | nil => simp
  | cons a as ih =>
      intro b hb
      rcases List.mem_cons.mp hb with rfl | hb
      · cases as with
        | nil => exact h'.trans h.symm
        | cons c as => exact h'.1.trans h.1.symm
      · exact ih h.tail h'.tail b hb

variable [DecidableEq α]

/-- A chain does not depend on where an element in front of it points. -/
theorem Linked.update_tail {a : α} {as : List α} (h : Linked next (a :: as)) (p : Option α) :
    Linked (Function.update next a p) as := by
  refine h.tail.congr fun b hb => Function.update_of_ne ?_ ..
  rintro rfl
  exact (List.nodup_cons.mp h.nodup).1 hb

/-- Every element points to the one in front of it, the first one to `p`. -/
def turn (next : α → Option α) : Option α → List α → α → Option α
  | _, [] => next
  | p, a :: as => turn (Function.update next a p) (some a) as

theorem turn_of_notMem {p : Option α} {as : List α} {b : α} (hb : b ∉ as) :
    turn next p as b = next b := by
  induction as generalizing next p with
  | nil => rfl
  | cons a as ih =>
      rw [turn, ih fun hmem => hb (List.mem_cons_of_mem a hmem),
        Function.update_of_ne (List.ne_of_not_mem_cons hb)]

/-- What is turned comes in front of the chain that it is turned onto. -/
theorem Linked.turn_append {p : α} {ps qs : List α} (h : Linked next (p :: ps))
    (hnodup : (qs ++ p :: ps).Nodup) :
    Linked (turn next (some p) qs) (qs.reverse ++ p :: ps) := by
  induction qs generalizing next p ps with
  | nil => exact h
  | cons q qs ih =>
      obtain ⟨hq, hrest⟩ := List.nodup_cons.mp hnodup
      have hfirst : Linked (Function.update next q (some p)) (q :: p :: ps) := by
        refine ⟨Function.update_self .., Linked.congr h fun a ha => ?_⟩
        apply Function.update_of_ne
        rintro rfl
        exact hq (List.mem_append_right qs ha)
      rw [List.reverse_cons, List.append_assoc]
      exact ih hfirst (List.perm_middle.nodup_iff.mpr hnodup)

theorem linked_turn {as : List α} (hnodup : as.Nodup) : Linked (turn next none as) as.reverse := by
  cases as with
  | nil => trivial
  | cons a as =>
      have hlast : Linked (Function.update next a none) [a] := Function.update_self ..
      rw [List.reverse_cons]
      exact hlast.turn_append (List.perm_append_singleton a as |>.nodup_iff.mpr hnodup)

/-- Turning a chain twice changes nothing. -/
theorem Linked.turn_turn {as : List α} (h : Linked next as) :
    turn (turn next none as) none as.reverse = next := by
  have htwice : Linked (turn (turn next none as) none as.reverse) as := by
    have hlinked := @linked_turn α (turn next none as) _ as.reverse (List.nodup_reverse.mpr h.nodup)
    rwa [List.reverse_reverse] at hlinked
  funext b
  by_cases hb : b ∈ as
  · exact h.next_eq htwice b hb
  · rw [turn_of_notMem (mt List.mem_reverse.mp hb), turn_of_notMem hb]

end Turn

end SkUtils.Library.LinkedChain
