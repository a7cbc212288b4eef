import Mathlib.Algebra.Group.Nat.Defs
import SkUtils.Strings.StringUtils

/-!
`getRandomInt` and `getRandomString` of `random.h`, for every draw of `_intDistro`. Signed
arithmetic that overflows, and a remainder by zero, are undefined.
-/

namespace SkUtils.Random.RandomUtil

open SkUtils.Strings.StringUtils (Str)

def INT_MIN : Int := -2147483648

def INT_MAX : Int := 2147483647

def IsInt (x : Int) : Prop :=
  INT_MIN ≤ x ∧ x ≤ INT_MAX

instance (x : Int) : Decidable (IsInt x) :=
  inferInstanceAs (Decidable (_ ∧ _))

/-- The result of an operation on `int`; `none` is an overflow. -/
def toInt (x : Int) : Option Int :=
  if IsInt x then some x else none

/-- `a % b` on `int`. -/
def rem (a b : Int) : Option Int :=
  if b = 0 ∨ a = INT_MIN ∧ b = -1 then none else some (a.tmod b)

/-- What `_intDistro` returns. -/
def IsDraw (d : Int) : Prop :=
  0 ≤ d ∧ d ≤ 10000

def getRandomInt (d lower upper : Int) : Option Int := do
  let width ← toInt (upper - lower)
  let width ← toInt (width + 1)
  toInt ((← rem d width) + lower)

/-- A `size_t` as an `int`. -/
def narrow (x : Int) : Int :=
  x.bmod (2 ^ 32)

/-- `charset[i]`, of which the terminator is a part. -/
def charAt (charset : Str) (i : Int) : Option Char :=
  if 0 ≤ i then (charset ++ ['\x00'])[i.toNat]? else none

/-- One character of a random string. -/
def getRandomChar (charset : Str) (d : Int) : Option Char := do
  charAt charset (← getRandomInt d 0 (narrow (charset.length - 1)))

/-- `getRandomString(length, charset)`, for `length` draws. -/
def getRandomString (charset : Str) (draws : List Int) : Option Str :=
  draws.mapM (getRandomChar charset)

section Ranges

variable {d lower upper : Int}

theorem toInt_of_isInt {x : Int} (h : IsInt x) : toInt x = some x :=
  if_pos h

theorem toInt_of_not_isInt {x : Int} (h : ¬ IsInt x) : toInt x = none :=
  if_neg h

/-- The width overflows: either the difference does, or its successor. -/
theorem getRandomInt_overflow (d : Int) (hwide : INT_MAX ≤ upper - lower) :
    getRandomInt d lower upper = none := by
  rw [getRandomInt]
  by_cases hdifference : IsInt (upper - lower)
  · have hsuccessor : ¬ IsInt (upper - lower + 1) := by
      rw [IsInt]
      omega
    rw [toInt_of_isInt hdifference, Option.bind_eq_bind, Option.bind_some,
      toInt_of_not_isInt hsuccessor]
    rfl
  · rw [toInt_of_not_isInt hdifference]
    rfl

theorem getRandomInt_of_fits (hd : IsDraw d) (hdifference : IsInt (upper - lower))
    (hsuccessor : IsInt (upper - lower + 1)) (hne : upper - lower + 1 ≠ 0)
    (hresult : IsInt (d % (upper - lower + 1) + lower)) :
    getRandomInt d lower upper = some (d % (upper - lower + 1) + lower) := by
  have hdraw : d ≠ INT_MIN := by
    have hnonneg := hd.1
    simp only [INT_MIN]
    omega
  have hrem : rem d (upper - lower + 1) = some (d % (upper - lower + 1)) := by
    rw [rem, if_neg (by tauto), Int.tmod_eq_emod_of_nonneg hd.1]
  rw [getRandomInt, toInt_of_isInt hdifference]
  simp only [Option.bind_eq_bind, Option.bind_some, toInt_of_isInt hsuccessor, hrem,
    toInt_of_isInt hresult]

theorem getRandomInt_eq (hlower : IsInt lower) (hupper : IsInt upper) (hle : lower ≤ upper)
    (hwidth : upper - lower < INT_MAX) (hd : IsDraw d) :
    getRandomInt d lower upper = some (d % (upper - lower + 1) + lower) := by
  have hpos : 0 < upper - lower + 1 := by omega
  have hnonneg := Int.emod_nonneg d (Int.ne_of_gt hpos)
  have hlt := Int.emod_lt_of_pos d hpos
  simp only [IsInt, INT_MIN, INT_MAX] at hlower hupper hwidth
  apply getRandomInt_of_fits hd
  · exact ⟨by rw [INT_MIN]; omega, by rw [INT_MAX]; omega⟩
  · exact ⟨by rw [INT_MIN]; omega, by rw [INT_MAX]; omega⟩
  · exact Int.ne_of_gt hpos
  · exact ⟨by rw [INT_MIN]; omega, by rw [INT_MAX]; omega⟩

/-- No draw is undefined, and the results are the range. -/
structure Covers (lower upper : Int) : Prop where
  defined : ∀ d, IsDraw d → getRandomInt d lower upper ≠ none
  results : ∀ r, (∃ d, IsDraw d ∧ getRandomInt d lower upper = some r) ↔
    lower ≤ r ∧ r ≤ upper

/-- The last number of a range is reached by a draw only when there are draws enough. -/
theorem Covers.width_le (hlower : IsInt lower) (hupper : IsInt upper) (hle : lower ≤ upper)
    (h : Covers lower upper) : upper - lower ≤ 10000 := by
  obtain ⟨d, hd, hresult⟩ := (h.results upper).mpr ⟨hle, Int.le_refl upper⟩
  have hwidth : upper - lower < INT_MAX := by
    by_contra hwide
    exact h.defined d hd (getRandomInt_overflow d (Int.not_lt.mp hwide))
  rw [getRandomInt_eq hlower hupper hle hwidth hd] at hresult
  have hreached := Option.some.inj hresult
  have hmost := hd.2
  by_contra hmore
  rw [Int.emod_eq_of_lt hd.1 (by omega)] at hreached
  omega

theorem covers_of_width_le (hlower : IsInt lower) (hupper : IsInt upper) (hle : lower ≤ upper)
    (hwidth : upper - lower ≤ 10000) : Covers lower upper := by
  have heq : ∀ {d}, IsDraw d →
      getRandomInt d lower upper = some (d % (upper - lower + 1) + lower) := by
    intro d hd
    exact getRandomInt_eq hlower hupper hle (by rw [INT_MAX]; omega) hd
  have hpos : 0 < upper - lower + 1 := by omega
  constructor
  · intro d hd
    simp [heq hd]
  · intro r
    constructor
    · rintro ⟨d, hd, hresult⟩
      rw [heq hd] at hresult
      have hreached := Option.some.inj hresult
      have hnonneg := Int.emod_nonneg d (Int.ne_of_gt hpos)
      have hlt := Int.emod_lt_of_pos d hpos
      omega
    · rintro ⟨hfirst, hlast⟩
      have hd : IsDraw (r - lower) := ⟨by omega, by omega⟩
      refine ⟨r - lower, hd, ?_⟩
      rw [heq hd, Int.emod_eq_of_lt (by omega) (by omega), Int.sub_add_cancel]

theorem covers_iff (hlower : IsInt lower) (hupper : IsInt upper) (hle : lower ≤ upper) :
    Covers lower upper ↔ upper - lower ≤ 10000 :=
  ⟨Covers.width_le hlower hupper hle, covers_of_width_le hlower hupper hle⟩

end Ranges

section Characters

variable {charset : Str} {c : Char}

/-- `c` is in a string that some draws lead to. -/
def CanAppear (charset : Str) (c : Char) : Prop :=
  ∃ draws ret, (∀ d ∈ draws, IsDraw d) ∧ getRandomString charset draws = some ret ∧ c ∈ ret

theorem getRandomChar_of_mem {draws : List Int} {ret : Str}
    (h : getRandomString charset draws = some ret) (hc : c ∈ ret) :
    ∃ d ∈ draws, getRandomChar charset d = some c := by
  induction draws generalizing ret with
  | nil =>
      obtain rfl : [] = ret := Option.some.inj h
      cases hc
  | cons d draws ih =>
      rw [getRandomString, List.mapM_cons, Option.bind_eq_bind, Option.bind_eq_some_iff] at h
      obtain ⟨first, hfirst, hrest⟩ := h
      obtain ⟨rest, hdraws, hret⟩ := Option.bind_eq_some_iff.mp hrest
      obtain rfl : first :: rest = ret := Option.some.inj hret
      rcases List.mem_cons.mp hc with rfl | hmem
      · exact ⟨d, List.mem_cons_self, hfirst⟩
      · obtain ⟨d', hd', hchar⟩ := ih hdraws hmem
        exact ⟨d', List.mem_cons_of_mem d hd', hchar⟩

theorem canAppear_iff :
    CanAppear charset c ↔ ∃ d, IsDraw d ∧ getRandomChar charset d = some c := by
  constructor
  · rintro ⟨draws, ret, hdraws, hret, hc⟩
    obtain ⟨d, hd, hchar⟩ := getRandomChar_of_mem hret hc
    exact ⟨d, hdraws d hd, hchar⟩
  · rintro ⟨d, hd, hchar⟩
    refine ⟨[d], [c], by simpa using hd, ?_, List.mem_singleton.mpr rfl⟩
    rw [getRandomString, List.mapM_cons, hchar]
    rfl

/-- How many indices a draw can lead to, when the length is taken for an `int`. -/
def reach (length : Nat) : Nat :=
  min (length % 2 ^ 32) (2 ^ 32 - length % 2 ^ 32)

theorem narrow_bounds (x : Int) : IsInt (narrow x) := by
  rw [IsInt, INT_MIN, INT_MAX, narrow, Int.bmod_def]
  split <;> omega

theorem narrow_eq_max_iff {length : Nat} :
    narrow (length - 1) = INT_MAX ↔ length % 2 ^ 32 = 2 ^ 31 := by
  rw [INT_MAX, narrow, Int.bmod_def]
  split <;> omega

theorem narrow_eq_neg_one_iff {length : Nat} :
    narrow (length - 1) = -1 ↔ length % 2 ^ 32 = 0 := by
  rw [narrow, Int.bmod_def]
  split <;> omega

/-- The divisor, up to its sign. -/
theorem natAbs_narrow (length : Nat) :
    (narrow (length - 1) + 1).natAbs = reach length := by
  rw [reach, narrow, Int.bmod_def]
  split <;> omega

theorem reach_le (length : Nat) : reach length ≤ length := by
  rw [reach]
  have hle := Nat.mod_le length (2 ^ 32)
  omega

theorem getRandomChar_overflow (h : charset.length % 2 ^ 32 = 2 ^ 31) (d : Int) :
    getRandomChar charset d = none := by
  rw [getRandomChar, narrow_eq_max_iff.mpr h, getRandomInt_overflow d (by simp)]
  rfl

theorem getRandomChar_zero (h : charset.length % 2 ^ 32 = 0) (d : Int) :
    getRandomChar charset d = none := by
  rw [getRandomChar, narrow_eq_neg_one_iff.mpr h]
  rfl

theorem getRandomChar_eq (hzero : charset.length % 2 ^ 32 ≠ 0)
    (hoverflow : charset.length % 2 ^ 32 ≠ 2 ^ 31) {n : Nat} (hn : n ≤ 10000) :
    getRandomChar charset n = charset[n % reach charset.length]? := by
  have hbounds := narrow_bounds (charset.length - 1)
  have hne : narrow (charset.length - 1) ≠ -1 := mt narrow_eq_neg_one_iff.mp hzero
  have hmax : narrow (charset.length - 1) ≠ INT_MAX := mt narrow_eq_max_iff.mp hoverflow
  have hmod : (n : Int) % (narrow (charset.length - 1) + 1) = (n % reach charset.length : Nat) := by
    rw [← natAbs_narrow]
    rcases Int.natAbs_eq (narrow (charset.length - 1) + 1) with hwidth | hwidth
    · conv_lhs => rw [hwidth]
      rfl
    · conv_lhs => rw [hwidth, Int.emod_neg]
      rfl
  have hsmall : n % reach charset.length ≤ 10000 := (Nat.mod_le _ _).trans hn
  have hpos : 0 < reach charset.length := by
    rw [reach]
    omega
  have hint : getRandomInt n 0 (narrow (charset.length - 1)) =
      some ((n % reach charset.length : Nat) : Int) := by
    rw [getRandomInt_of_fits ⟨Int.natCast_nonneg n, by omega⟩, Int.sub_zero, hmod,
      Int.add_zero]
    · rwa [Int.sub_zero]
    · simp only [IsInt] at hbounds ⊢
      omega
    · omega
    · rw [Int.sub_zero, hmod, Int.add_zero, IsInt, INT_MIN, INT_MAX]
      omega
  rw [getRandomChar, hint, Option.bind_eq_bind, Option.bind_some, charAt,
    if_pos (Int.natCast_nonneg _), Int.toNat_natCast]
  apply List.getElem?_append_left
  exact (Nat.mod_lt n hpos).trans_le (reach_le charset.length)

theorem canAppear_all_iff (hne : charset ≠ []) :
    (∀ c ∈ charset, CanAppear charset c) ↔
      charset.length % 2 ^ 32 ≠ 0 ∧ charset.length % 2 ^ 32 ≠ 2 ^ 31 ∧
        ∀ c ∈ charset, c ∈ charset.take (min 10001 (reach charset.length)) := by
  simp only [canAppear_iff]
  constructor
  · intro h
    obtain ⟨d, hd, hchar⟩ := h (charset.head hne) (List.head_mem hne)
    have hzero : charset.length % 2 ^ 32 ≠ 0 := by
      intro hzero
      rw [getRandomChar_zero hzero] at hchar
      cases hchar
    have hoverflow : charset.length % 2 ^ 32 ≠ 2 ^ 31 := by
      intro hoverflow
      rw [getRandomChar_overflow hoverflow] at hchar
      cases hchar
    refine ⟨hzero, hoverflow, fun c hc => ?_⟩
    obtain ⟨d, hd, hchar⟩ := h c hc
    obtain ⟨n, rfl⟩ := Int.eq_ofNat_of_zero_le hd.1
    have hn : n ≤ 10000 := Int.ofNat_le.mp hd.2
    rw [getRandomChar_eq hzero hoverflow hn] at hchar
    have hpos : 0 < reach charset.length := by
      rw [reach]
      omega
    have hlt := Nat.mod_lt n hpos
    have hle := Nat.mod_le n (reach charset.length)
    rw [List.mem_iff_getElem?]
    refine ⟨n % reach charset.length, ?_⟩
    rw [List.getElem?_take_of_lt (by omega), hchar]
  · rintro ⟨hzero, hoverflow, htake⟩ c hc
    obtain ⟨n, hn⟩ := List.mem_iff_getElem?.mp (htake c hc)
    have hlt := (List.getElem?_eq_some_iff.mp hn).1
    rw [List.length_take] at hlt
    rw [List.getElem?_take_of_lt (by omega)] at hn
    refine ⟨n, ⟨Int.natCast_nonneg n, by omega⟩, ?_⟩
    rw [getRandomChar_eq hzero hoverflow (by omega), Nat.mod_eq_of_lt (by omega), hn]

end Characters

theorem random_covers_iff (lower upper : Int) (hlower : IsInt lower) (hupper : IsInt upper)
    (hle : lower ≤ upper) (charset : Str) (hne : charset ≠ []) :
    (Covers lower upper ↔ upper - lower ≤ 10000) ∧
      ((∀ c ∈ charset, CanAppear charset c) ↔
        charset.length % 2 ^ 32 ≠ 0 ∧ charset.length % 2 ^ 32 ≠ 2 ^ 31 ∧
          ∀ c ∈ charset, c ∈ charset.take (min 10001 (reach charset.length))) :=
  ⟨covers_iff hlower hupper hle, canAppear_all_iff hne⟩

theorem random_covers_defaults :
    Covers 0 100 ∧ ∀ c ∈ ['0', '1'], CanAppear ['0', '1'] c := by
  obtain ⟨hcovers, hchars⟩ :=
    random_covers_iff 0 100 (by decide) (by decide) (by decide) ['0', '1'] (by simp)
  constructor
  · exact hcovers.mpr (by decide)
  · exact hchars.mpr ⟨by decide, by decide, by simp [reach]⟩

/-- The last value of a range is beyond the draws, the width of all `int`s overflows, and
a last character stands behind all indices. -/
theorem random_misses :
    (¬ ∀ lower upper, IsInt lower → IsInt upper → lower ≤ upper → Covers lower upper) ∧
      getRandomInt 0 INT_MIN INT_MAX = none ∧
      ¬ ∀ charset, charset ≠ [] → ∀ c ∈ charset, CanAppear charset c := by
  refine ⟨fun h => ?_, getRandomInt_overflow 0 (by decide), fun h => ?_⟩
  · have hcovers := h 0 10001 (by decide) (by decide) (by decide)
    rw [covers_iff (by decide) (by decide) (by decide)] at hcovers
    exact absurd hcovers (by decide)
  · have hne : List.replicate 10001 'a' ++ ['b'] ≠ [] :=
      List.append_ne_nil_of_right_ne_nil _ (List.cons_ne_nil _ _)
    have hlength : (List.replicate 10001 'a' ++ ['b']).length = 10002 := by
      rw [List.length_append, List.length_replicate, List.length_singleton]
    have hmem : 'b' ∈ List.replicate 10001 'a' ++ ['b'] :=
      List.mem_append_right _ (List.mem_singleton.mpr rfl)
    have htake := ((canAppear_all_iff hne).mp (h _ hne)).2.2 'b' hmem
    rw [hlength, show min 10001 (reach 10002) = 10001 from rfl,
      List.take_left' List.length_replicate] at htake
    exact absurd (List.eq_of_mem_replicate htake) (by decide)

end SkUtils.Random.RandomUtil
