import Mathlib.Data.List.Perm.Subperm
import SkUtils.Containers.TreePrinting
import SkUtils.Library.CheckedLoop
import SkUtils.Library.LinkedChain
import SkUtils.Random.RandomUtil

/-!
`vector2List`, `reverseList` and `listToString` of `lc.h`, with the `ListNode`s on a heap.
Every access is checked: a null pointer, an index behind the end of a vector, and a loop that
does not end are faults.
-/

namespace SkUtils.Containers.ListNodes

open SkUtils.Library.CheckedLoop
open SkUtils.Library.LinkedChain
open SkUtils.Library.UniqueReadability
open SkUtils.Random.RandomUtil (narrow)
open SkUtils.Strings.Printer (decimal toString_head)
open SkUtils.Strings.StringUtils (Str)

abbrev Addr :=
  Nat

@[ext] structure ListNode where
  val : Int
  next : Option Addr

inductive Fault
  | badAddress
  | outOfBounds
  | noProgress

/-- `new` hands out the addresses in order, `top` is the next one. -/
@[ext] structure Memory where
  heap : Addr → Option ListNode
  top : Addr
  free : ∀ a, top ≤ a → heap a = none

namespace Memory

variable (m : Memory)

def empty : Memory where
  heap _ := none
  top := 0
  free _ _ := rfl

/-- `new ListNode(val)`. -/
def new (val : Int) : Memory × Option Addr :=
  ({ heap := Function.update m.heap m.top (some ⟨val, none⟩)
     top := m.top + 1
     free := by
      intro a ha
      rw [Function.update_of_ne (Nat.ne_of_gt ha)]
      exact m.free a (Nat.le_of_lt ha) }, some m.top)

/-- The node at `a` points to `p`. -/
def link (a : Addr) (p : Option Addr) : Memory where
  heap := Function.update m.heap a ((m.heap a).map fun node => { node with next := p })
  top := m.top
  free := by
    intro b hb
    have hnone := m.free b hb
    rcases eq_or_ne b a with rfl | hne
    · rw [Function.update_self, hnone]
      rfl
    · rw [Function.update_of_ne hne, hnone]

/-- `*p`. -/
def load (p : Option Addr) : Except Fault ListNode :=
  match p.bind m.heap with
  | some node => return node
  | none => throw .badAddress

/-- `p->next = next`. -/
def setNext (p next : Option Addr) : Except Fault Memory :=
  match p with
  | none => throw .badAddress
  | some a => if (m.heap a).isSome then return m.link a next else throw .badAddress

end Memory

section Code

/-- `data[i]`. -/
def element (data : List Int) (i : Nat) : Except Fault Int :=
  match data[i]? with
  | some val => return val
  | none => throw .outOfBounds

/-- One round of the loop of `vector2List`, with `tail`. -/
def append (data : List Int) (s : Memory × Option Addr) (i : Nat) :
    Except Fault (Memory × Option Addr) := do
  let (m, node) := s.1.new (← element data i)
  let m ← m.setNext s.2 node
  return (m, (← m.load s.2).next)

def vector2List (m : Memory) (data : List Int) : Except Fault (Memory × Option Addr) := do
  let len := narrow data.length
  let (m, head) := m.new (← element data 0)
  let (m, _) ← (List.range' 1 (len.toNat - 1)).foldlM (append data) (m, head)
  return (m, head)

/-- The loop of `reverseList`, cut off after `fuel` tests, with the `p` and `q` behind it. -/
def reverseLoop : Nat → Memory → Option Addr → Option Addr →
    Except Fault (Memory × Option Addr × Option Addr)
  | 0, _, _, _ => throw .noProgress
  | fuel + 1, m, p, q => do
      let r := (← m.load q).next
      if r = none then
        return (m, p, q)
      else
        let m ← m.setNext q p
        reverseLoop fuel m q r

/-- The memory and `*head` behind the call. -/
def reverseList (m : Memory) (head : Option Addr) : Except Fault (Memory × Option Addr) := do
  let q := (← m.load head).next
  if q = none then
    return (m, head)
  else
    let m ← m.setNext head none
    let (m, p, q) ← reverseLoop m.top m head q
    let m ← m.setNext q p
    return (m, q)

/-- `ss` after the loop of `listToString`, which is cut off after `fuel` tests. -/
def writeLoop (m : Memory) (sep : Str) : Nat → Str → Option Addr → Except Fault Str
  | 0, _, _ => throw .noProgress
  | fuel + 1, ss, p =>
      if p = none then
        return ss
      else do
        let node ← m.load p
        writeLoop m sep fuel (ss ++ decimal node.val ++ sep) node.next

/-- A difference of two `size_t`. -/
def sizeDiff (a b : Nat) : Nat :=
  if b ≤ a then a - b else 2 ^ 64 - (b - a)

def listToString (m : Memory) (list : Option Addr) (sep : Str) : Except Fault Str := do
  let ss ← writeLoop m sep (m.top + 1) ['['] list
  return ss.take (sizeDiff ss.length sep.length) ++ [']']

/-- `listToString` of the list of a vector, when that has been reversed. -/
def reversedToString (m : Memory) (data : List Int) (sep : Str) : Except Fault Str := do
  let (m, head) ← vector2List m data
  let (m, head) ← reverseList m head
  listToString m head sep

end Code

section Nodes

variable {m m' : Memory} {a : Addr} {p : Option Addr}

namespace Memory

def value (m : Memory) (a : Addr) : Option Int :=
  (m.heap a).map ListNode.val

def next (m : Memory) (a : Addr) : Option Addr :=
  (m.heap a).bind ListNode.next

end Memory

/-- Following `next` from `p` visits the nodes, and then comes to null. -/
def Visits (m : Memory) : Option Addr → List Addr → Prop
  | p, [] => p = none
  | p, a :: as => p = some a ∧ ∃ node, m.heap a = some node ∧ Visits m node.next as

/-- The nodes hold the values. -/
def Holds (m : Memory) (nodes : List Addr) (vals : List Int) : Prop :=
  nodes.map m.value = vals.map some

theorem heap_eq_iff : m.heap a = m'.heap a ↔ m.value a = m'.value a ∧ m.next a = m'.next a := by
  constructor
  · intro h
    rw [Memory.value, Memory.next, h]
    exact ⟨rfl, rfl⟩
  · rintro ⟨hvalue, hnext⟩
    rw [Memory.value, Memory.value] at hvalue
    rw [Memory.next, Memory.next] at hnext
    cases hm : m.heap a with
    | none =>
        rw [hm] at hvalue
        exact (Option.map_eq_none_iff.mp hvalue.symm).symm
    | some node =>
        rw [hm] at hvalue hnext
        obtain ⟨node', hnode', hval⟩ := Option.map_eq_some_iff.mp hvalue.symm
        rw [hnode'] at hnext ⊢
        exact congrArg some (ListNode.ext hval.symm hnext)

theorem lt_top (h : (m.value a).isSome) : a < m.top := by
  by_contra hle
  rw [Memory.value, m.free a (Nat.not_lt.mp hle)] at h
  exact absurd h (by simp)

theorem heap_isSome (h : (m.value a).isSome) : ∃ node, m.heap a = some node := by
  rw [Memory.value, Option.isSome_map] at h
  exact Option.isSome_iff_exists.mp h

theorem setNext_eq (h : (m.value a).isSome) (p : Option Addr) :
    m.setNext (some a) p = .ok (m.link a p) := by
  rw [Memory.value, Option.isSome_map] at h
  rw [Memory.setNext, if_pos h]
  rfl

theorem heap_link (m : Memory) (a : Addr) (p : Option Addr) : (m.link a p).heap =
    Function.update m.heap a ((m.heap a).map fun node => { node with next := p }) :=
  rfl

theorem value_link (m : Memory) (a : Addr) (p : Option Addr) : (m.link a p).value = m.value := by
  funext b
  rw [Memory.value, Memory.value, heap_link]
  rcases eq_or_ne b a with rfl | hne
  · rw [Function.update_self]
    cases m.heap b <;> rfl
  · rw [Function.update_of_ne hne]

theorem next_link (h : (m.value a).isSome) (p : Option Addr) :
    (m.link a p).next = Function.update m.next a p := by
  obtain ⟨node, hnode⟩ := heap_isSome h
  funext b
  rw [Memory.next, heap_link]
  rcases eq_or_ne b a with rfl | hne
  · rw [Function.update_self, Function.update_self, hnode]
    rfl
  · rw [Function.update_of_ne hne, Function.update_of_ne hne]
    rfl

theorem load_next (h : (m.value a).isSome) : ∃ node, m.load (some a) = .ok node ∧
    node.next = m.next a ∧ m.value a = some node.val := by
  obtain ⟨node, hnode⟩ := heap_isSome h
  refine ⟨node, ?_, ?_, ?_⟩
  · rw [Memory.load, Option.bind_some, hnode]
    rfl
  · rw [Memory.next, hnode]
    rfl
  · rw [Memory.value, hnode]
    rfl

/-- A list is a chain of nodes from its head. -/
theorem visits_iff {nodes : List Addr} : Visits m p nodes ↔
    p = nodes.head? ∧ (∀ a ∈ nodes, (m.value a).isSome) ∧ Linked m.next nodes := by
  induction nodes generalizing p with
  | nil => simp [Visits, Linked]
  | cons a as ih =>
      rw [Visits, List.head?_cons, List.forall_mem_cons]
      refine and_congr_right fun _ => ?_
      constructor
      · rintro ⟨node, hnode, hvisits⟩
        obtain ⟨hhead, hvalues, hlinked⟩ := ih.mp hvisits
        have hnext : m.next a = as.head? := by
          rw [Memory.next, hnode]
          exact hhead
        refine ⟨⟨by simp [Memory.value, hnode], hvalues⟩, ?_⟩
        cases as with
        | nil => exact hnext
        | cons b as => exact ⟨hnext, hlinked⟩
      · rintro ⟨⟨hvalue, hvalues⟩, hlinked⟩
        obtain ⟨node, hnode⟩ := heap_isSome hvalue
        refine ⟨node, hnode, ih.mpr ⟨?_, hvalues, hlinked.tail⟩⟩
        have hnext : m.next a = node.next := by
          rw [Memory.next, hnode]
          rfl
        rw [← hnext]
        cases as with
        | nil => exact hlinked
        | cons b as => exact hlinked.1

/-- The nodes of a chain are different ones of those that have been made. -/
theorem length_le_top {nodes : List Addr} (hvalues : ∀ a ∈ nodes, (m.value a).isSome)
    (hlinked : Linked m.next nodes) : nodes.length ≤ m.top := by
  have hsubset : nodes ⊆ List.range m.top := by
    intro a ha
    exact List.mem_range.mpr (lt_top (hvalues a ha))
  have hle := (List.subperm_of_subset hlinked.nodup hsubset).length_le
  rwa [List.length_range] at hle

end Nodes

section Reversal

variable {m : Memory} {head : Option Addr} {nodes : List Addr}

/-- The loop points every node to the one before, up to the last, which is left to the code
behind the loop. -/
theorem reverseLoop_spec {p : Option Addr} {q : Addr} {qs : List Addr} {fuel : Nat}
    (hvalues : ∀ a ∈ q :: qs, (m.value a).isSome) (hlinked : Linked m.next (q :: qs))
    (hfuel : qs.length < fuel) :
    ∃ m' p' q', reverseLoop fuel m p (some q) = .ok (m', p', some q') ∧
      (q :: qs).getLast? = some q' ∧ (m'.value q').isSome ∧ m'.value = m.value ∧
      m'.top = m.top ∧ Function.update m'.next q' p' = turn m.next p (q :: qs) := by
  induction qs generalizing m p q fuel with
  | nil =>
      obtain ⟨fuel, rfl⟩ := Nat.exists_eq_add_one.mpr hfuel
      have hq := hvalues q List.mem_cons_self
      obtain ⟨node, hload, hnext, -⟩ := load_next hq
      have hend : node.next = none := hnext.trans hlinked
      refine ⟨m, p, q, ?_, rfl, hq, rfl, rfl, rfl⟩
      rw [reverseLoop, hload, ok_bind, if_pos hend]
      rfl
  | cons r rs ih =>
      obtain ⟨fuel, rfl⟩ := Nat.exists_eq_add_one.mpr (Nat.zero_lt_of_lt hfuel)
      obtain ⟨hq, hrest⟩ := List.forall_mem_cons.mp hvalues
      obtain ⟨node, hload, hnext, -⟩ := load_next hq
      have hmore : node.next = some r := hnext.trans hlinked.1
      have hnext' : (m.link q p).next = Function.update m.next q p := next_link hq p
      have hlinked' : Linked (m.link q p).next (r :: rs) := by
        rw [hnext']
        exact hlinked.update_tail p
      obtain ⟨m', p', q', hloop, hlast, hq', hvalue, htop, hturn⟩ :=
        ih (m := m.link q p) (p := some q) (by rwa [value_link]) hlinked'
          (Nat.lt_of_succ_lt_succ hfuel)
      refine ⟨m', p', q', ?_, ?_, hq', hvalue.trans (value_link m q p), htop, ?_⟩
      · rw [reverseLoop, hload, ok_bind, hmore, if_neg (by simp), setNext_eq hq, ok_bind]
        exact hloop
      · rw [List.getLast?_cons_cons]
        exact hlast
      · rw [hturn, hnext']
        rfl

/-- `reverseList` turns the chain of the nodes around. -/
theorem reverseList_spec (hne : nodes ≠ []) (h : Visits m head nodes) :
    ∃ m', reverseList m head = .ok (m', nodes.getLast?) ∧ m'.value = m.value ∧
      m'.top = m.top ∧ m'.next = turn m.next none nodes := by
  obtain ⟨rfl, hvalues, hlinked⟩ := visits_iff.mp h
  cases nodes with
  | nil => exact absurd rfl hne
  | cons a as =>
      obtain ⟨ha, hrest⟩ := List.forall_mem_cons.mp hvalues
      obtain ⟨node, hload, hnext, -⟩ := load_next ha
      rw [List.head?_cons]
      cases as with
      | nil =>
          have hend : m.next a = none := hlinked
          refine ⟨m, ?_, rfl, rfl, ?_⟩
          · rw [reverseList, hload, ok_bind, if_pos (hnext.trans hend)]
            rfl
          · exact (Function.update_eq_self_iff.mpr hend.symm).symm
      | cons b bs =>
          have hmore : node.next = some b := hnext.trans hlinked.1
          have hnext' : (m.link a none).next = Function.update m.next a none := next_link ha none
          have hlinked' : Linked (m.link a none).next (b :: bs) := by
            rw [hnext']
            exact hlinked.update_tail none
          have hfuel : bs.length < (m.link a none).top := by
            have hle := length_le_top hvalues hlinked
            rw [List.length_cons, List.length_cons] at hle
            exact Nat.lt_of_succ_lt hle
          obtain ⟨m', p', q', hloop, hlast, hq', hvalue, htop, hturn⟩ :=
            reverseLoop_spec (m := m.link a none) (p := some a) (by rwa [value_link]) hlinked' hfuel
          refine ⟨m'.link q' p', ?_, ?_, htop, ?_⟩
          · rw [reverseList, hload, ok_bind, hmore, if_neg (by simp), setNext_eq ha, ok_bind,
              hloop, ok_bind, List.getLast?_cons_cons, hlast]
            dsimp only
            rw [setNext_eq hq', ok_bind]
            rfl
          · rw [value_link, hvalue, value_link]
          · rw [next_link hq', hturn, hnext']
            rfl

theorem visits_reverse {m' : Memory} (h : Visits m head nodes) (hvalue : m'.value = m.value)
    (hnext : m'.next = turn m.next none nodes) :
    Visits m' nodes.getLast? nodes.reverse := by
  obtain ⟨-, hvalues, hlinked⟩ := visits_iff.mp h
  refine visits_iff.mpr ⟨List.head?_reverse.symm, ?_, ?_⟩
  · intro a ha
    rw [hvalue]
    exact hvalues a (List.mem_reverse.mp ha)
  · rw [hnext]
    exact linked_turn hlinked.nodup

/-- A second reversal leads back to the memory itself. -/
theorem reverseList_twice {m' : Memory} (hne : nodes ≠ []) (h : Visits m head nodes)
    (hvalue : m'.value = m.value) (htop : m'.top = m.top)
    (hnext : m'.next = turn m.next none nodes) :
    reverseList m' nodes.getLast? = .ok (m, head) := by
  obtain ⟨hhead, hvalues, hlinked⟩ := visits_iff.mp h
  obtain ⟨m'', hagain, hvalue', htop', hnext'⟩ :=
    reverseList_spec (by simpa using hne) (visits_reverse h hvalue hnext)
  rw [hnext, hlinked.turn_turn] at hnext'
  have hsame : m'' = m := by
    refine Memory.ext ?_ (htop'.trans htop)
    funext a
    exact heap_eq_iff.mpr ⟨congrFun (hvalue'.trans hvalue) a, congrFun hnext' a⟩
  rw [hagain, hsame, List.getLast?_reverse, hhead]

end Reversal

section Texts

variable {m : Memory} {sep : Str}

theorem writeLoop_spec {p : Option Addr} {nodes : List Addr} {vals : List Int} {ss : Str}
    {fuel : Nat} (h : Visits m p nodes) (hvals : Holds m nodes vals)
    (hfuel : nodes.length < fuel) :
    writeLoop m sep fuel ss p =
      .ok (ss ++ (vals.map decimal).flatMap fun word => word ++ sep) := by
  induction nodes generalizing p vals ss fuel with
  | nil =>
      obtain ⟨fuel, rfl⟩ := Nat.exists_eq_add_one.mpr hfuel
      obtain rfl : vals = [] := List.map_eq_nil_iff.mp hvals.symm
      obtain rfl : p = none := h
      rw [writeLoop, if_pos rfl, List.map_nil, List.flatMap_nil, List.append_nil]
      rfl
  | cons a as ih =>
      obtain ⟨fuel, rfl⟩ := Nat.exists_eq_add_one.mpr (Nat.zero_lt_of_lt hfuel)
      obtain ⟨rfl, node, hnode, hrest⟩ := h
      cases vals with
      | nil => exact absurd hvals (List.cons_ne_nil _ _)
      | cons val vals =>
          obtain ⟨hval, hvals⟩ := List.cons.inj hvals
          have hload : m.load (some a) = .ok node := by
            rw [Memory.load, Option.bind_some, hnode]
            rfl
          have hsame : node.val = val := by
            rw [Memory.value, hnode] at hval
            exact Option.some.inj hval
          rw [writeLoop, if_neg (by simp), hload, ok_bind,
            ih hrest hvals (Nat.lt_of_succ_lt_succ hfuel), hsame, List.map_cons,
            List.flatMap_cons, List.append_assoc, List.append_assoc, List.append_assoc]

/-- The text of a list shows its values in their order. -/
theorem listToString_spec {list : Option Addr} {nodes : List Addr} {vals : List Int}
    (h : Visits m list nodes) (hvals : Holds m nodes vals) (hne : vals ≠ []) :
    listToString m list sep = .ok ('[' :: listing sep [']'] (vals.map decimal)) := by
  obtain ⟨-, hvalues, hlinked⟩ := visits_iff.mp h
  have hfuel : nodes.length < m.top + 1 := Nat.lt_succ_of_le (length_le_top hvalues hlinked)
  have hne' : vals.map decimal ≠ [] := by simpa using hne
  have hlength : sep.length ≤
      (['['] ++ (vals.map decimal).flatMap fun word => word ++ sep).length := by
    obtain ⟨val, vals, rfl⟩ := List.exists_cons_of_ne_nil hne
    simp only [List.map_cons, List.flatMap_cons, List.length_append]
    omega
  rw [listToString, writeLoop_spec h hvals hfuel, ok_bind, sizeDiff, if_pos hlength,
    TreePrinting.cut_separator sep ['['] hne']
  rfl

end Texts

section Vectors

variable {m : Memory} {data : List Int}

theorem element_eq {i : Nat} (h : i < data.length) : element data i = .ok data[i] := by
  rw [element, List.getElem?_eq_getElem h]
  rfl

theorem heap_new (m : Memory) (val : Int) :
    (m.new val).1.heap = Function.update m.heap m.top (some ⟨val, none⟩) :=
  rfl

theorem value_new (m : Memory) (val : Int) :
    (m.new val).1.value = Function.update m.value m.top (some val) := by
  funext a
  rw [Memory.value, heap_new]
  rcases eq_or_ne a m.top with rfl | hne
  · rw [Function.update_self, Function.update_self]
    rfl
  · rw [Function.update_of_ne hne, Function.update_of_ne hne]
    rfl

theorem next_top (m : Memory) : m.next m.top = none := by
  rw [Memory.next, m.free m.top (Nat.le_refl _)]
  rfl

theorem next_new (m : Memory) (val : Int) : (m.new val).1.next = m.next := by
  funext a
  rw [Memory.next, heap_new]
  rcases eq_or_ne a m.top with rfl | hne
  · rw [Function.update_self, next_top]
    rfl
  · rw [Function.update_of_ne hne]
    rfl

/-- The list from `head` to `tail` has the first `i` elements. -/
def Grown (data : List Int) (head : Option Addr) (i : Nat) (s : Memory × Option Addr) : Prop :=
  ∃ a bs, head = some a ∧ s.2 = some (last a bs) ∧ Visits s.1 (some a) (a :: bs) ∧
    Holds s.1 (a :: bs) (data.take i)

theorem grown_start (m : Memory) (h : 0 < data.length) :
    Grown data (some m.top) 1 (m.new data[0]) := by
  refine ⟨m.top, [], rfl, rfl, visits_iff.mpr ⟨rfl, ?_, ?_⟩, ?_⟩
  · intro a ha
    rw [List.mem_singleton.mp ha, value_new, Function.update_self]
    rfl
  · rw [next_new]
    exact next_top m
  · rw [Holds, List.map_singleton, value_new, Function.update_self, List.take_one,
      List.head?_eq_getElem?, List.getElem?_eq_getElem h]
    rfl

/-- A new node behind `t`. -/
def grow (m : Memory) (t : Addr) (val : Int) : Memory :=
  (m.new val).1.link t (some m.top)

theorem value_grow (m : Memory) (t : Addr) (val : Int) :
    (grow m t val).value = Function.update m.value m.top (some val) := by
  rw [grow, value_link, value_new]

theorem value_new_of_isSome {t : Addr} (h : (m.value t).isSome) (val : Int) :
    (m.new val).1.value t = m.value t := by
  rw [value_new, Function.update_of_ne (Nat.ne_of_lt (lt_top h))]

theorem next_grow {t : Addr} (h : (m.value t).isSome) (val : Int) :
    (grow m t val).next = Function.update m.next t (some m.top) := by
  rw [grow, next_link (by rwa [value_new_of_isSome h]), next_new]

theorem append_eq {t : Addr} {i : Nat} (h : (m.value t).isSome) (hi : i < data.length) :
    append data (m, some t) i = .ok (grow m t data[i], some m.top) := by
  have hnew : ((m.new data[i]).1.value t).isSome := by rwa [value_new_of_isSome h]
  have hgrown : ((grow m t data[i]).value t).isSome := by rwa [grow, value_link]
  obtain ⟨node, hload, hnext, -⟩ := load_next hgrown
  rw [next_grow h, Function.update_self] at hnext
  rw [append, element_eq hi, ok_bind]
  change ((m.new data[i]).1.setNext (some t) (some m.top) >>= _) = _
  rw [setNext_eq hnew, ok_bind]
  change ((grow m t data[i]).load (some t) >>= _) = _
  rw [hload, ok_bind, hnext]
  rfl

/-- One round of the loop makes the list longer by one element. -/
theorem Grown.append {head : Option Addr} {i : Nat} {s : Memory × Option Addr}
    (h : Grown data head i s) (hi : i < data.length) :
    ∃ s', append data s i = .ok s' ∧ Grown data head (i + 1) s' := by
  obtain ⟨m, tail⟩ := s
  obtain ⟨a, bs, rfl, htail, hvisits, hholds⟩ := h
  obtain rfl : tail = some (last a bs) := htail
  obtain ⟨-, hvalues, hlinked⟩ := visits_iff.mp hvisits
  have hlast := hvalues _ (last_mem a bs)
  have hfresh : m.top ∉ a :: bs := fun hmem => Nat.lt_irrefl _ (lt_top (hvalues _ hmem))
  have hold : ∀ b ∈ a :: bs, (grow m (last a bs) data[i]).value b = m.value b := by
    intro b hb
    rw [value_grow, Function.update_of_ne (ne_of_mem_of_not_mem hb hfresh)]
  have hnew : (grow m (last a bs) data[i]).value m.top = some data[i] := by
    rw [value_grow, Function.update_self]
  refine ⟨_, append_eq hlast hi, a, bs ++ [m.top], rfl, ?_, visits_iff.mpr ⟨rfl, ?_, ?_⟩, ?_⟩
  · rw [last_append]
    rfl
  · rw [← List.cons_append, List.forall_mem_append, List.forall_mem_singleton, hnew]
    refine ⟨fun b hb => ?_, rfl⟩
    rw [hold b hb]
    exact hvalues b hb
  · have hchain : Chain m.next a (bs ++ []) := by rwa [List.append_nil]
    have hlink : (grow m (last a bs) data[i]).next = link m.next (last a bs) m.top := by
      have hend : m.next (last a bs) = none := hchain.drop
      have hfree : Function.update m.next m.top none = m.next :=
        Function.update_eq_self_iff.mpr (next_top m).symm
      rw [next_grow hlast, link, hend, hfree]
    rw [hlink]
    exact hchain.link hchain.nodup (by rwa [List.append_nil])
  · rw [Holds, ← List.cons_append, List.map_append, List.map_singleton, hnew,
      List.map_congr_left hold, hholds, List.take_add_one, List.getElem?_eq_getElem hi,
      List.map_append]
    rfl

/-- How many of the elements get into the list, when their number is taken for an `int`. -/
def listed (length : Nat) : Nat :=
  1 + ((narrow length).toNat - 1)

theorem listed_le {length : Nat} (h : 0 < length) : listed length ≤ length := by
  rw [listed, narrow, Int.bmod_def]
  split <;> omega

theorem listed_eq_iff {length : Nat} (h : 0 < length) :
    listed length = length ↔ length < 2 ^ 31 := by
  rw [listed, narrow, Int.bmod_def]
  split <;> omega

theorem take_listed_ne_nil (h : data ≠ []) : data.take (listed data.length) ≠ [] := by
  rw [Ne, List.take_eq_nil_iff, not_or, listed]
  exact ⟨Nat.ne_of_gt (Nat.lt_add_right _ Nat.one_pos), h⟩

theorem appendLoop_spec (m : Memory) (h : 0 < data.length) {n : Nat} (hn : 1 + n ≤ data.length) :
    ∃ s, (List.range' 1 n).foldlM (append data) (m.new data[0]) = .ok s ∧
      Grown data (some m.top) (1 + n) s := by
  apply foldlM_range'_ok (Grown data (some m.top)) (grown_start m h)
  intro i _ hi s hs
  exact hs.append (Nat.lt_of_lt_of_le hi hn)

theorem vector2List_spec (m : Memory) (h : 0 < data.length) :
    ∃ m' head nodes, vector2List m data = .ok (m', head) ∧ Visits m' head nodes ∧
      Holds m' nodes (data.take (listed data.length)) := by
  have hn := listed_le h
  rw [listed] at hn
  obtain ⟨s, hloop, a, bs, hhead, -, hvisits, hholds⟩ := appendLoop_spec m h hn
  rw [← listed] at hholds
  refine ⟨s.1, some m.top, a :: bs, ?_, ?_, hholds⟩
  · rw [vector2List]
    -- the kernel must not compute with the number of the elements
    generalize narrow data.length = len at hloop ⊢
    rw [element_eq h, ok_bind]
    exact congrArg (fun looped => looped >>= fun s => pure (s.1, some m.top)) hloop
  · rw [hhead]
    exact hvisits

end Vectors

section Results

variable {m : Memory} {data : List Int} {sep : Str}

/-- The values in the list of a vector, behind a reversal. -/
theorem reversedToString_eq (m : Memory) (hdata : data ≠ []) (sep : Str) :
    reversedToString m data sep =
      .ok ('[' :: listing sep [']'] ((data.take (listed data.length)).reverse.map decimal)) := by
  have hpos := List.length_pos_of_ne_nil hdata
  obtain ⟨m', head, nodes, hmade, hvisits, hholds⟩ := vector2List_spec m hpos
  have hvals := take_listed_ne_nil hdata
  have hne : nodes ≠ [] := by
    rintro rfl
    exact hvals (List.map_eq_nil_iff.mp hholds.symm)
  obtain ⟨m'', hreversed, hvalue, -, hnext⟩ := reverseList_spec hne hvisits
  have hholds' : Holds m'' nodes.reverse (data.take (listed data.length)).reverse := by
    rw [Holds, hvalue, List.map_reverse, List.map_reverse, hholds]
  rw [reversedToString, hmade, ok_bind]
  change (reverseList m' head >>= _) = _
  rw [hreversed, ok_bind]
  exact listToString_spec (visits_reverse hvisits hvalue hnext) hholds' (by simpa using hvals)

/-- A longer list has a longer text. -/
theorem eq_nil_of_listing_eq {xs ys : List Int} (hne : ys ≠ [])
    (h : listing sep [']'] (ys.map decimal) = listing sep [']'] ((xs ++ ys).map decimal)) :
    xs = [] := by
  have hwords : ys.map decimal ≠ [] := by simpa using hne
  have hwords' : (xs ++ ys).map decimal ≠ [] := by simp [hne]
  have hclose : ∀ (closing : Str) (words : List Str),
      listing sep [] words ++ closing = listing sep closing words := by
    intro closing words
    rw [listing_append, List.nil_append]
  rw [← hclose [']'] (ys.map decimal), ← hclose [']'] ((xs ++ ys).map decimal),
    List.append_cancel_right_eq] at h
  have hflat := congrArg (· ++ sep) h
  simp only [hclose, listing_eq_flatMap hwords, listing_eq_flatMap hwords'] at hflat
  rw [List.map_append, List.flatMap_append, List.self_eq_append_left] at hflat
  cases xs with
  | nil => rfl
  | cons x xs =>
      obtain ⟨c, word, hdecimal, -⟩ := toString_head .int x
      have hnone := (List.flatMap_eq_nil_iff.mp hflat) (decimal x) List.mem_cons_self
      rw [show decimal x = c :: word from hdecimal] at hnone
      exact absurd hnone (List.cons_ne_nil _ _)

/-- The vector is listed backwards, if its size fits into the `int`. -/
theorem reversedToString_iff (m : Memory) (hdata : data ≠ []) (sep : Str) :
    reversedToString m data sep = .ok ('[' :: listing sep [']'] (data.reverse.map decimal)) ↔
      data.length < 2 ^ 31 := by
  have hpos := List.length_pos_of_ne_nil hdata
  have hle := listed_le hpos
  rw [reversedToString_eq m hdata, ← listed_eq_iff hpos]
  constructor
  · intro h
    have htext := (List.cons.inj (Except.ok.inj h)).2
    have hsplit : data.reverse = (data.drop (listed data.length)).reverse ++
        (data.take (listed data.length)).reverse := by
      rw [← List.reverse_append, List.take_append_drop]
    rw [hsplit] at htext
    have hshown : (data.take (listed data.length)).reverse ≠ [] := by
      simpa using take_listed_ne_nil hdata
    have hrest := congrArg List.length (eq_nil_of_listing_eq hshown htext)
    rw [List.length_reverse, List.length_drop, List.length_nil] at hrest
    omega
  · intro hall
    rw [hall, List.take_length]

/-- `reverseList` turns every list around in place, and a second call restores the memory; the
list of a vector is shown backwards exactly if the `int` holds its size. -/
theorem reverseList_lists_iff (m : Memory) :
    (∀ head nodes, nodes ≠ [] → Visits m head nodes →
      ∃ m', reverseList m head = .ok (m', nodes.getLast?) ∧
        Visits m' nodes.getLast? nodes.reverse ∧ m'.value = m.value ∧
        (∀ a, a ∉ nodes → m'.heap a = m.heap a) ∧
        reverseList m' nodes.getLast? = .ok (m, head)) ∧
    ∀ data sep, data ≠ [] →
      (reversedToString m data sep =
        .ok ('[' :: listing sep [']'] (data.reverse.map decimal)) ↔ data.length < 2 ^ 31) := by
  constructor
  · intro head nodes hne h
    obtain ⟨m', hreversed, hvalue, htop, hnext⟩ := reverseList_spec hne h
    refine ⟨m', hreversed, visits_reverse h hvalue hnext, hvalue, ?_,
      reverseList_twice hne h hvalue htop hnext⟩
    intro a ha
    rw [heap_eq_iff, hvalue, hnext, turn_of_notMem ha]
    exact ⟨rfl, rfl⟩
  · intro data sep hdata
    exact reversedToString_iff m hdata sep

/-- Two nodes, the first of which points to the second. -/
def pair : Memory :=
  ((Memory.empty.new 7).1.new 8).1.link 0 (some 1)

theorem reverseList_lists_pair :
    (∃ m', reverseList pair (some 0) = .ok (m', some 1) ∧ Visits m' (some 1) [1, 0]) ∧
      reversedToString pair [1, 2, 3] [','] = .ok "[3,2,1]".toList := by
  obtain ⟨hreverses, hlists⟩ := reverseList_lists_iff pair
  constructor
  · have hvisits : Visits pair (some 0) [0, 1] := ⟨rfl, _, rfl, rfl, _, rfl, rfl⟩
    obtain ⟨m', hreversed, hback, -⟩ := hreverses (some 0) [0, 1] (by simp) hvisits
    exact ⟨m', hreversed, hback⟩
  · exact (hlists [1, 2, 3] [','] (by simp)).mpr (by decide)

/-- As an `int`, `2 ^ 31` is negative, and the list ends with its first node. -/
theorem reverseList_huge :
    ¬ ∀ (m : Memory) (data : List Int) (sep : Str), data ≠ [] →
      reversedToString m data sep =
        .ok ('[' :: listing sep [']'] (data.reverse.map decimal)) := by
  intro h
  have hhuge : List.replicate (2 ^ 31) (0 : Int) ≠ [] := by
    rw [Ne, List.replicate_eq_nil_iff]
    exact Nat.ne_of_gt (Nat.two_pow_pos 31)
  have hsize := (reversedToString_iff Memory.empty hhuge [',']).mp (h _ _ _ hhuge)
  rw [List.length_replicate] at hsize
  exact Nat.lt_irrefl _ hsize

end Results

end SkUtils.Containers.ListNodes
