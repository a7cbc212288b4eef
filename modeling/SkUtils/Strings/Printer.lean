import Mathlib.Data.List.DropRight
import SkUtils.Library.UniqueReadability
import SkUtils.Strings.StringUtils

/-!
`toString` of `printer.h` on the printable types that are built from `int` and `bool` by
sequential containers, maps, pairs, tuples, optionals, stacks and queues.
-/

namespace SkUtils.Strings.Printer

open SkUtils.Library.UniqueReadability
open SkUtils.Strings.StringUtils

mutual

/-- `sequential` is a `std::vector` or a `std::list`. -/
inductive Ty
  | int
  | bool
  | sequential (elem : Ty)
  | mapped (key value : Ty)
  | pair (first second : Ty)
  | tuple (elems : Tys)
  | optional (value : Ty)
  | stack (elem : Ty)
  | queue (elem : Ty)

inductive Tys
  | nil
  | cons (head : Ty) (tail : Tys)

end

mutual

/-- A map is the sequence of its pairs, a stack begins at its top, and a queue at its
front. -/
def Val : Ty → Type
  | .int => Int
  | .bool => Bool
  | .sequential elem => List (Val elem)
  | .mapped key value => List (Val key × Val value)
  | .pair first second => Val first × Val second
  | .tuple elems => Vals elems
  | .optional value => Option (Val value)
  | .stack elem => List (Val elem)
  | .queue elem => List (Val elem)

def Vals : Tys → Type
  | .nil => Unit
  | .cons head tail => Val head × Vals tail

end

def ELEM_SEP : Str :=
  [',']

/-- `os << n` of an `int`. -/
def decimal : Int → Str
  | .ofNat n => Nat.toDigits 10 n
  | .negSucc n => '-' :: Nat.toDigits 10 (n + 1)

section Containers

/-! The containers, given the renderings of their elements. -/

def Pair2String (first second : Str) : Str :=
  ['{'] ++ first ++ ELEM_SEP ++ second ++ ['}']

def forBasedContainer2String (elems : List Str) : Str :=
  if elems.isEmpty then ['[', ']']
  else
    let ret := elems.foldl (fun ss elem => ss ++ elem ++ ELEM_SEP) ['[']
    ret.rdrop ELEM_SEP.length ++ [']']

/-- `Stack2String` and `Queue2String`, which differ in their first word only. -/
def adaptor2String (opening : Str) : List Str → Str
  | [] => ['[', ']']
  | first :: rest =>
      let sep := ['<', '-']
      let ret := rest.foldl (fun ss elem => ss ++ elem ++ sep) (opening ++ first ++ sep)
      ret.rdrop sep.length ++ [']']

def Stack2String (elems : List Str) : Str :=
  adaptor2String ['S', 't', 'a', 'c', 'k', '['] elems

def Queue2String (elems : List Str) : Str :=
  adaptor2String ['Q', 'u', 'e', 'u', 'e', '['] elems

def tupleToStringImpl (elems : List Str) : Str :=
  elems.zipIdx.foldl (fun ss elem => ss ++ (if elem.2 = 0 then [] else ELEM_SEP) ++ elem.1)
    ['('] ++ [')']

end Containers

mutual

def toString : (t : Ty) → Val t → Str
  | .int, n => decimal n
  | .bool, true => ['T', 'r', 'u', 'e']
  | .bool, false => ['F', 'a', 'l', 's', 'e']
  | .sequential elem, c => forBasedContainer2String (List.map (toString elem) c)
  | .mapped key value, c =>
      forBasedContainer2String
        (List.map (fun e => Pair2String (toString key e.1) (toString value e.2)) c)
  | .pair first second, p => Pair2String (toString first p.1) (toString second p.2)
  | .tuple elems, t => tupleToStringImpl (toStrings elems t)
  | .optional value, some x => ['o', 'p', 't', 'i', 'o', 'n', 'a', 'l', '('] ++ toString value x ++ [')']
  | .optional _, none => ['n', 'u', 'l', 'l', 'o', 'p', 't']
  | .stack elem, c => Stack2String (List.map (toString elem) c)
  | .queue elem, c => Queue2String (List.map (toString elem) c)

def toStrings : (ts : Tys) → Vals ts → List Str
  | .nil, _ => []
  | .cons head tail, t => toString head t.1 :: toStrings tail t.2

end

section Listings

theorem foldl_append_sep (sep init : Str) (elems : List Str) :
    elems.foldl (fun ss elem => ss ++ elem ++ sep) init =
      init ++ elems.flatMap fun elem => elem ++ sep := by
  induction elems generalizing init with
  | nil => simp
  | cons elem elems ih =>
      rw [List.foldl_cons, ih, List.flatMap_cons]
      simp only [List.append_assoc]

theorem rdrop_append_length (text word : Str) : (text ++ word).rdrop word.length = text := by
  simp [List.rdrop]

/-- The separator after the last element gives way to the closing bracket. -/
theorem pop_separator (opening sep closing : Str) {elems : List Str} (h : elems ≠ []) :
    (opening ++ elems.flatMap fun elem => elem ++ sep).rdrop sep.length ++ closing =
      opening ++ listing sep closing elems := by
  have hsep : elems.flatMap (fun elem => elem ++ sep) = listing sep [] elems ++ sep := by
    rw [← listing_eq_flatMap h, listing_append, List.nil_append]
  rw [hsep, ← List.append_assoc, rdrop_append_length, List.append_assoc, listing_append,
    List.nil_append]

theorem forBasedContainer2String_eq (elems : List Str) :
    forBasedContainer2String elems = '[' :: listing ELEM_SEP [']'] elems := by
  cases elems with
  | nil => rfl
  | cons elem elems =>
      rw [forBasedContainer2String, if_neg (by simp)]
      simp only [foldl_append_sep]
      exact pop_separator _ _ _ (by simp)

theorem adaptor2String_cons (opening first : Str) (rest : List Str) :
    adaptor2String opening (first :: rest) =
      opening ++ listing ['<', '-'] [']'] (first :: rest) := by
  rw [← pop_separator _ _ _ (List.cons_ne_nil first rest), adaptor2String]
  simp only [foldl_append_sep, List.flatMap_cons]
  simp only [List.append_assoc]

theorem foldl_zipIdx_succ (ss closing : Str) (elems : List Str) (i : Nat) :
    (elems.zipIdx (i + 1)).foldl
        (fun ss elem => ss ++ (if elem.2 = 0 then [] else ELEM_SEP) ++ elem.1) ss ++ closing =
      ss ++ separated ELEM_SEP closing elems := by
  induction elems generalizing ss i with
  | nil => rfl
  | cons elem elems ih =>
      rw [List.zipIdx_cons, List.foldl_cons, ih, if_neg (Nat.succ_ne_zero i)]
      simp only [separated, List.append_assoc]

theorem tupleToStringImpl_eq (elems : List Str) :
    tupleToStringImpl elems = '(' :: listing ELEM_SEP [')'] elems := by
  cases elems with
  | nil => rfl
  | cons elem elems =>
      rw [tupleToStringImpl, List.zipIdx_cons, List.foldl_cons]
      exact foldl_zipIdx_succ _ _ elems 0

end Listings

section Leaves

/-- The letters that end a number. -/
def EndsNumber (c : Char) : Prop :=
  ¬ (c.isDigit = true ∨ c = '-')

theorem toDigits_injective : Function.Injective (Nat.toDigits 10) := by
  intro n m h
  rw [← Nat.ofDigitChars_ten_toDigits (n := n), h, Nat.ofDigitChars_ten_toDigits]

theorem isDigit_of_mem {n : Nat} {c : Char} (h : c ∈ Nat.toDigits 10 n) : c.isDigit = true :=
  Nat.isDigit_of_mem_toDigits (by decide) (by decide) h

theorem toDigits_ne_minus {n : Nat} (w : Str) : Nat.toDigits 10 n ≠ '-' :: w := by
  intro h
  have hminus : '-' ∈ Nat.toDigits 10 n := h ▸ List.mem_cons_self
  exact absurd (isDigit_of_mem hminus) (by decide)

theorem decimal_injective : Function.Injective decimal := by
  intro n m h
  cases n with
  | ofNat n =>
      cases m with
      | ofNat m => exact congrArg Int.ofNat (toDigits_injective h)
      | negSucc m => exact absurd h (toDigits_ne_minus _)
  | negSucc n =>
      cases m with
      | ofNat m => exact absurd h.symm (toDigits_ne_minus _)
      | negSucc m =>
          have hnm : n + 1 = m + 1 := toDigits_injective (List.cons.inj h).2
          exact congrArg Int.negSucc (Nat.succ.inj hnm)

theorem readable_decimal : Readable EndsNumber decimal := by
  refine .of_injective decimal_injective fun n c hc hends => hends ?_
  cases n with
  | ofNat n => exact .inl (isDigit_of_mem hc)
  | negSucc n =>
      rcases List.mem_cons.mp hc with rfl | hc
      · exact .inr rfl
      · exact .inl (isDigit_of_mem hc)

end Leaves

section Types

theorem toString_head (t : Ty) (x : Val t) : ∃ c word, toString t x = c :: word ∧ c ≠ ']' := by
  cases t with
  | int =>
      cases x with
      | ofNat n =>
          obtain ⟨c, word, hword⟩ := List.exists_cons_of_ne_nil
            (Nat.toDigits_ne_nil (n := n) (b := 10))
          have hdigit : c.isDigit = true := isDigit_of_mem (n := n) (by simp [hword])
          exact ⟨c, word, hword, fun hc => absurd (hc ▸ hdigit) (by decide)⟩
      | negSucc n => exact ⟨'-', _, rfl, by decide⟩
  | bool =>
      cases x with
      | true => exact ⟨'T', _, rfl, by decide⟩
      | false => exact ⟨'F', _, rfl, by decide⟩
  | sequential elem => exact ⟨'[', _, forBasedContainer2String_eq _, by decide⟩
  | mapped key value => exact ⟨'[', _, forBasedContainer2String_eq _, by decide⟩
  | pair first second => exact ⟨'{', _, rfl, by decide⟩
  | tuple elems => exact ⟨'(', _, tupleToStringImpl_eq _, by decide⟩
  | optional value =>
      cases x with
      | none => exact ⟨'n', _, rfl, by decide⟩
      | some x => exact ⟨'o', _, rfl, by decide⟩
  | stack elem =>
      cases x with
      | nil => exact ⟨'[', _, rfl, by decide⟩
      | cons x xs => exact ⟨'S', _, adaptor2String_cons _ _ _, by decide⟩
  | queue elem =>
      cases x with
      | nil => exact ⟨'[', _, rfl, by decide⟩
      | cons x xs => exact ⟨'Q', _, adaptor2String_cons _ _ _, by decide⟩

theorem readable_bool : Readable EndsNumber (toString .bool) := by
  intro x y r s _ _ h
  cases x with
  | true =>
      cases y with
      | true => exact ⟨rfl, List.append_cancel_left h⟩
      | false => exact absurd (List.cons.inj h).1 (by decide)
  | false =>
      cases y with
      | true => exact absurd (List.cons.inj h).1 (by decide)
      | false => exact ⟨rfl, List.append_cancel_left h⟩

theorem readable_pair {first second : Ty} (hfirst : Readable EndsNumber (toString first))
    (hsecond : Readable EndsNumber (toString second)) :
    Readable EndsNumber fun p : Val first × Val second =>
      Pair2String (toString first p.1) (toString second p.2) := by
  intro x y r s _ _ h
  simp only [Pair2String, ELEM_SEP, List.append_assoc] at h
  have hwords : toString first x.1 ++ ([','] ++ (toString second x.2 ++ (['}'] ++ r))) =
      toString first y.1 ++ ([','] ++ (toString second y.2 ++ (['}'] ++ s))) :=
    List.append_cancel_left h
  exact hfirst.pair hsecond (by simp [EndsNumber]) (by simp [EndsNumber]) hwords

theorem readable_container {α : Type} {render : α → Str} (h : Readable EndsNumber render)
    (hhead : ∀ x, ∃ c word, render x = c :: word ∧ c ≠ ']') :
    Readable EndsNumber fun xs : List α => forBasedContainer2String (xs.map render) := by
  intro xs ys r s _ _ heq
  simp only [forBasedContainer2String_eq] at heq
  exact h.listing (c := ',') (d := ']') (by simp [EndsNumber]) (by simp [EndsNumber])
    (by decide) hhead (List.cons.inj heq).2

theorem readable_adaptor {α : Type} {render : α → Str} (h : Readable EndsNumber render)
    (hhead : ∀ x, ∃ c word, render x = c :: word ∧ c ≠ ']') {c : Char} {opening : Str}
    (hopening : c ≠ '[') :
    Readable EndsNumber fun xs : List α => adaptor2String (c :: opening) (xs.map render) := by
  intro xs ys r s _ _ heq
  cases xs with
  | nil =>
      cases ys with
      | nil => exact ⟨rfl, List.append_cancel_left heq⟩
      | cons y ys =>
          simp only [List.map_cons, adaptor2String_cons] at heq
          exact absurd (List.cons.inj heq).1.symm hopening
  | cons x xs =>
      cases ys with
      | nil =>
          simp only [List.map_cons, adaptor2String_cons] at heq
          exact absurd (List.cons.inj heq).1 hopening
      | cons y ys =>
          simp only [List.map_cons, adaptor2String_cons, List.append_assoc] at heq
          have hwords : listing ['<', '-'] [']'] ((x :: xs).map render) ++ r =
              listing ['<', '-'] [']'] ((y :: ys).map render) ++ s :=
            List.append_cancel_left heq
          exact h.listing (by simp [EndsNumber]) (by simp [EndsNumber]) (by decide) hhead hwords

theorem toString_some (value : Ty) (x : Val value) :
    toString (.optional value) (some x) =
      ['o', 'p', 't', 'i', 'o', 'n', 'a', 'l', '('] ++ toString value x ++ [')'] := rfl

theorem toString_none (value : Ty) :
    toString (.optional value) none = ['n', 'u', 'l', 'l', 'o', 'p', 't'] := rfl

theorem toString_tuple (elems : Tys) (x : Val (.tuple elems)) :
    toString (.tuple elems) x = tupleToStringImpl (toStrings elems x) := rfl

theorem toStrings_cons (head : Ty) (tail : Tys) (x : Vals (.cons head tail)) :
    toStrings (.cons head tail) x = toString head x.1 :: toStrings tail x.2 := rfl

theorem readable_optional {value : Ty} (h : Readable EndsNumber (toString value)) :
    Readable EndsNumber (toString (.optional value)) := by
  intro x y r s _ _ heq
  cases x with
  | none =>
      cases y with
      | none => exact ⟨rfl, List.append_cancel_left heq⟩
      | some y =>
          rw [toString_none, toString_some] at heq
          exact absurd (List.cons.inj heq).1 (by decide)
  | some x =>
      cases y with
      | none =>
          rw [toString_none, toString_some] at heq
          exact absurd (List.cons.inj heq).1 (by decide)
      | some y =>
          simp only [toString_some, List.append_assoc] at heq
          have hbody := List.append_cancel_left heq
          have hstops : ∀ rest, Stops EndsNumber ([')'] ++ rest) :=
            fun rest => stops_append (by simp [EndsNumber])
          obtain ⟨rfl, hrest⟩ := h _ _ _ _ (hstops r) (hstops s) hbody
          exact ⟨rfl, List.append_cancel_left hrest⟩

/-- The elements of a tuple after the first one. -/
def ReadableTail (ts : Tys) : Prop :=
  ∀ (x y : Vals ts) r s, separated ELEM_SEP [')'] (toStrings ts x) ++ r =
    separated ELEM_SEP [')'] (toStrings ts y) ++ s → x = y ∧ r = s

theorem readableTail_nil : ReadableTail .nil := by
  intro x y r s h
  exact ⟨rfl, List.append_cancel_left h⟩

theorem readable_cons {head : Ty} {tail : Tys} (hhead : Readable EndsNumber (toString head))
    (htail : ReadableTail tail) {x y : Vals (.cons head tail)} {r s : Str}
    (h : listing ELEM_SEP [')'] (toStrings (.cons head tail) x) ++ r =
      listing ELEM_SEP [')'] (toStrings (.cons head tail) y) ++ s) : x = y ∧ r = s := by
  simp only [toStrings_cons, listing, List.append_assoc] at h
  have hstops : ∀ words rest, Stops EndsNumber (separated ELEM_SEP [')'] words ++ rest) :=
    stops_separated (by simp [EndsNumber]) (by simp [EndsNumber])
  obtain ⟨hfirst, hrest⟩ := hhead _ _ _ _ (hstops _ _) (hstops _ _) h
  obtain ⟨hsecond, hend⟩ := htail _ _ _ _ hrest
  exact ⟨Prod.ext hfirst hsecond, hend⟩

theorem readableTail_cons {head : Ty} {tail : Tys}
    (hhead : Readable EndsNumber (toString head)) (htail : ReadableTail tail) :
    ReadableTail (.cons head tail) := by
  intro x y r s h
  simp only [toStrings_cons, separated, List.append_assoc] at h
  refine readable_cons hhead htail ?_
  simp only [toStrings_cons, listing, List.append_assoc]
  exact List.append_cancel_left h

theorem readable_tuple_nil : Readable EndsNumber (toString (.tuple .nil)) := by
  intro x y r s _ _ h
  exact ⟨rfl, List.append_cancel_left h⟩

theorem readable_tuple_cons {head : Ty} {tail : Tys}
    (hhead : Readable EndsNumber (toString head)) (htail : ReadableTail tail) :
    Readable EndsNumber (toString (.tuple (.cons head tail))) := by
  intro x y r s _ _ h
  simp only [toString_tuple, tupleToStringImpl_eq] at h
  exact readable_cons hhead htail (List.cons.inj h).2

mutual

theorem readable : ∀ t, Readable EndsNumber (toString t)
  | .int => readable_decimal
  | .bool => readable_bool
  | .sequential elem => readable_container (readable elem) (toString_head elem)
  | .mapped key value =>
      readable_container (readable_pair (readable key) (readable value))
        fun _ => ⟨'{', _, rfl, by decide⟩
  | .pair first second => readable_pair (readable first) (readable second)
  | .tuple .nil => readable_tuple_nil
  | .tuple (.cons head tail) => readable_tuple_cons (readable head) (readableTail tail)
  | .optional value => readable_optional (readable value)
  | .stack elem => readable_adaptor (readable elem) (toString_head elem) (by decide)
  | .queue elem => readable_adaptor (readable elem) (toString_head elem) (by decide)

theorem readableTail : ∀ ts, ReadableTail ts
  | .nil => readableTail_nil
  | .cons head tail => readableTail_cons (readable head) (readableTail tail)

end

end Types

/-- The comparison of `STR_EQUAL_(x, y)` on two values of one type. -/
def STR_EQUAL_ (t : Ty) (x y : Val t) : Bool :=
  let expected := toString t x
  let actual := toString t y
  expected == actual

/-- `toString` tells any two values of one type apart, and so does `STR_EQUAL_`. -/
theorem toString_eq_iff (t : Ty) (x y : Val t) :
    (toString t x = toString t y ↔ x = y) ∧ (STR_EQUAL_ t x y = true ↔ x = y) := by
  have hiff : toString t x = toString t y ↔ x = y := (readable t).injective.eq_iff
  exact ⟨hiff, beq_iff_eq.trans hiff⟩

example :
    toString (.stack (.pair .int (.optional .bool))) [((-2 : Int), some true), ((3 : Int), none)] =
      ['S', 't', 'a', 'c', 'k', '[', '{', '-', '2', ',', 'o', 'p', 't', 'i', 'o', 'n', 'a', 'l',
        '(', 'T', 'r', 'u', 'e', ')', '}', '<', '-', '{', '3', ',', 'n', 'u', 'l', 'l', 'o', 'p',
        't', '}', ']'] := by
  decide

end SkUtils.Strings.Printer
