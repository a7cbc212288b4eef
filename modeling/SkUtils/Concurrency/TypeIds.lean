import SkUtils.Concurrency.EventSubscriptions
import SkUtils.Library.FoldedHash

/-!
`Hash` and `GetTypeID` of `typeinfo.h`, by which `EventBus` finds the handler list of an event
type. `GetTypeNameRaw` is what the compiler makes of a type.
-/

namespace SkUtils.Concurrency.TypeIds

open SkUtils.Concurrency.EventSubscriptions
open SkUtils.Library.FoldedHash
open SkUtils.Library.TransitionSystem

abbrev TypeID :=
  BitVec 64

/-- A `char`, which is signed. -/
abbrev Byte :=
  BitVec 8

/-- One round of the loop of `Hash`. -/
def hashByte (hash : TypeID) (c : Byte) : TypeID :=
  (hash ^^^ c.signExtend 64) * 1099511628211#64

def Hash (str : List Byte) : TypeID :=
  str.foldl hashByte 14695981039346656037#64

section Injectivity

theorem signExtend_injective : Function.Injective fun c : Byte => c.signExtend 64 := by
  intro c d h
  have hint := congrArg BitVec.toInt h
  simp only [BitVec.toInt_signExtend_of_le (show 8 ≤ 64 by decide)] at hint
  exact BitVec.eq_of_toInt_eq hint

/-- The multiplier is odd, so that it has an inverse. -/
theorem mul_prime_injective : Function.Injective fun hash : TypeID => hash * 1099511628211#64 := by
  intro x y h
  have hinverse : (1099511628211#64 * 14886173955864302971#64 : TypeID) = 1#64 := by decide
  calc
    x = x * (1099511628211#64 * 14886173955864302971#64) := by rw [hinverse, BitVec.mul_one]
    _ = y * (1099511628211#64 * 14886173955864302971#64) := by
      rw [← BitVec.mul_assoc, ← BitVec.mul_assoc]
      exact congrArg (· * 14886173955864302971#64) h
    _ = y := by rw [hinverse, BitVec.mul_one]

theorem hashByte_state_injective (c : Byte) : Function.Injective fun hash => hashByte hash c := by
  intro x y h
  exact (BitVec.xor_left_inj _).mp (mul_prime_injective h)

theorem hashByte_letter_injective (hash : TypeID) : Function.Injective (hashByte hash) := by
  intro c d h
  exact signExtend_injective ((BitVec.xor_right_inj _).mp (mul_prime_injective h))

theorem Hash_ne {s t : List Byte} (h : DifferAtOne s t) : Hash s ≠ Hash t :=
  foldl_ne_of_differAtOne hashByte_state_injective hashByte_letter_injective h _

end Injectivity

section Slots

variable {T C : Type} (GetTypeNameRaw : T → List Byte)

def GetTypeID (type : T) : TypeID :=
  Hash (GetTypeNameRaw type)

/-- `Subscribe<type>` and `Publish<type>` use the id of the type. -/
def Move.withId : Move T C → Move TypeID C
  | .subscribe type callback => .subscribe (GetTypeID GetTypeNameRaw type) callback
  | .publish type => .publish (GetTypeID GetTypeNameRaw type)
  | .next => .next
  | .finish => .finish

def Action.withId (a : EventSubscriptions.Action T C) : EventSubscriptions.Action TypeID C where
  thread := a.thread
  move := Move.withId GetTypeNameRaw a.move

variable {GetTypeNameRaw}

theorem registered_withId {as : List (EventSubscriptions.Action T C)} {id : TypeID} {callback : C}
    (h : Registered (as.map (Action.withId GetTypeNameRaw)) id callback) :
    ∃ type, GetTypeID GetTypeNameRaw type = id ∧ Registered as type callback := by
  obtain ⟨i, hmem⟩ := h
  obtain ⟨⟨thread, move⟩, ha, heq⟩ := List.mem_map.mp hmem
  cases move with
  | subscribe type callback' =>
      cases heq
      exact ⟨type, rfl, thread, ha⟩
  | publish type => cases heq
  | next => cases heq
  | finish => cases heq

end Slots

/-- Names that differ in one character have different ids, so that in no run a handler list
has a callback from a type whose name differs in one character. -/
theorem ids_separate {T C : Type} (GetTypeNameRaw : T → List Byte) :
    (∀ s t : List Byte, DifferAtOne s t → Hash s ≠ Hash t) ∧
    (∀ type other : T, DifferAtOne (GetTypeNameRaw type) (GetTypeNameRaw other) →
      GetTypeID GetTypeNameRaw type ≠ GetTypeID GetTypeNameRaw other) ∧
    ∀ (n : Nat) (as : List (EventSubscriptions.Action T C)) (s : State TypeID C),
      exec (eventBus TypeID C n) (eventBus TypeID C n).init
        (as.map (Action.withId GetTypeNameRaw)) = some s →
      ∀ type, ∀ callback ∈ s.shared.callbacks (GetTypeID GetTypeNameRaw type),
        ∃ other, Registered as other callback ∧
          ¬ DifferAtOne (GetTypeNameRaw other) (GetTypeNameRaw type) := by
  refine ⟨fun s t => Hash_ne, fun type other => Hash_ne, ?_⟩
  intro n as s hexec type callback hmem
  have hregistered := (allRegistered_of_run (run_of_exec hexec)).callbacks _ callback hmem
  obtain ⟨other, hid, hcall⟩ := registered_withId hregistered
  exact ⟨other, hcall, fun hdiffer => Hash_ne hdiffer hid⟩

/-- Two types, named `Ta` and `Tb`. -/
def names : Bool → List Byte
  | false => [84, 97]
  | true => [84, 98]

def subscription : List (EventSubscriptions.Action Bool Nat) :=
  [⟨0, .subscribe true 7⟩, ⟨0, .next⟩, ⟨0, .next⟩, ⟨0, .next⟩, ⟨0, .next⟩]

theorem ids_separate_names :
    Hash (names false) ≠ Hash (names true) ∧
      ∃ other, Registered subscription other 7 ∧ ¬ DifferAtOne (names other) (names true) := by
  obtain ⟨hhash, -, hslots⟩ := ids_separate (T := Bool) (C := Nat) names
  have hdiffer : DifferAtOne (names false) (names true) := by
    refine ⟨rfl, 1, by decide, ?_⟩
    intro i hi
    match i with
    | 0 => exact absurd rfl hi
    | 1 => rfl
    | _ + 2 => exact absurd rfl hi
  refine ⟨hhash _ _ hdiffer, ?_⟩
  exact hslots 1 subscription _ rfl true 7 (by decide)

end SkUtils.Concurrency.TypeIds
