import SkUtils.Containers.UnionFindFromGraph
import SkUtils.Library.PaddedColumns
import SkUtils.Strings.Printer

/-!
`toString` of a `Graph<int>` of `graph.h`. The width of its cells is found in one pass over
the labels, in which every label of two or more digits overwrites what came before it.
-/

namespace SkUtils.Containers.GraphPrinting

open SkUtils.Library.CheckedLoop
open SkUtils.Library.PaddedColumns
open SkUtils.Containers.GraphMatrix
open SkUtils.Containers.UnionFindFromGraph (getNode getNode_eq_ok)
open SkUtils.Strings.Printer (decimal isDigit_of_mem)
open SkUtils.Strings.StringUtils (Str)

/-- `ss << std::setw(max) << text`. -/
def setw (max : Nat) (text : Str) : Str :=
  pad ' ' max text

/-- The body of the loop over the labels. -/
def widen (max : Nat) (node : Int) : Nat :=
  let max := if node ≥ 10 ∧ node < 100 then 2 else max
  if node ≥ 100 then 3 else max

def cellWidth (g : Graph Int) : Except Fault Nat := do
  let max ← (List.range g.nodeNum).foldlM (fun max i => do
    return widen max (← getNode g.nodes i)) 1
  return max + 1

def prefixSpace (max : Nat) : Str :=
  List.replicate (max * 2 + 3) ' '

def labelRow (g : Graph Int) (max : Nat) : Except Fault Str :=
  (List.range g.nodeNum).foldlM (fun ss i => do
    return ss ++ setw max (decimal (← getNode g.nodes i))) (prefixSpace max)

def indexRow (g : Graph Int) (max : Nat) : Str :=
  (List.range g.nodeNum).foldl (fun ss (i : Nat) => ss ++ setw max (decimal i)) (prefixSpace max)

def dashRow (g : Graph Int) (max : Nat) : Str :=
  (List.range g.nodeNum).foldl (fun ss _ => ss ++ setw max ['-']) (prefixSpace max)

/-- The row of `i` below the header. An edge of weight 1 is written as any other. -/
def matrixRow (g : Graph Int) (max i : Nat) : Except Fault Str := do
  let label ← getNode g.nodes i
  let ss := ['['] ++ setw max (decimal label) ++ [']'] ++ setw max (decimal i) ++ ['|']
  (List.range g.nodeNum).foldlM (fun ss j => do
    let value ← getCell g.edges i j
    return ss ++ setw max (if value = dummyValue then [' '] else decimal value)) ss

def toString (g : Graph Int) : Except Fault Str := do
  if g.nodeNum = 0 then
    return "[EMPTY GRAPH]".toList
  let max ← cellWidth g
  let labels ← labelRow g max
  let ss := labels ++ ['\n'] ++ indexRow g max ++ ['\n'] ++ dashRow g max ++ ['\n']
  (List.range g.nodeNum).foldlM (fun ss i => do
    return ss ++ (← matrixRow g max i) ++ ['\n']) ss

section Width

/-- The number of digits of a label that is not negative. -/
theorem length_decimal_le {v : Int} (hv : 0 ≤ v) {k : Nat} (hk : 0 < k) :
    (decimal v).length ≤ k ↔ v < 10 ^ k := by
  obtain ⟨n, rfl⟩ := Int.eq_ofNat_of_zero_le hv
  rw [show decimal n = Nat.toDigits 10 n from rfl, Nat.length_toDigits_le_iff (by decide) hk]
  exact_mod_cast Iff.rfl

/-- The last label of two or more digits, if there is one, has three where any has. -/
def LastLargest (nodes : List Int) : Prop :=
  ∀ last ∈ (nodes.filter (10 ≤ ·)).getLast?, (∃ v ∈ nodes, 100 ≤ v) → 100 ≤ last

theorem foldl_widen (nodes : List Int) :
    nodes.foldl widen 1 =
      match (nodes.filter (10 ≤ ·)).getLast? with
      | none => 1
      | some last => if last < 100 then 2 else 3 := by
  induction nodes using List.reverseRecOn with
  | nil => rfl
  | append_singleton nodes node ih =>
      rw [List.foldl_append, List.filter_append, List.foldl_cons, List.foldl_nil, ih]
      by_cases hten : 10 ≤ node
      · have hlast : [node].filter (10 ≤ ·) = [node] := by simp [hten]
        rw [hlast, List.getLast?_concat]
        by_cases hhundred : node < 100
        · simp [widen, hten, hhundred]
        · simp [widen, hhundred, Int.not_lt.mp hhundred]
      · have hlast : [node].filter (10 ≤ ·) = [] := by simpa using hten
        have hsmall : ¬ 100 ≤ node := by omega
        rw [hlast, List.append_nil]
        simp [widen, hten, hsmall]

theorem mem_of_getLast?_filter {nodes : List Int} {last : Int}
    (h : (nodes.filter (10 ≤ ·)).getLast? = some last) : last ∈ nodes ∧ 10 ≤ last := by
  have hmem := List.mem_filter.mp (List.mem_of_getLast? h)
  exact ⟨hmem.1, of_decide_eq_true hmem.2⟩

theorem lt_ten_of_getLast?_filter {nodes : List Int}
    (h : (nodes.filter (10 ≤ ·)).getLast? = none) : ∀ v ∈ nodes, v < 10 := by
  intro v hv
  have hnot := List.filter_eq_nil_iff.mp (List.getLast?_eq_none_iff.mp h) v hv
  simpa using hnot

theorem fits_iff {nodes : List Int} (hlabels : ∀ v ∈ nodes, 0 ≤ v ∧ v < 1000) :
    (∀ v ∈ nodes, (decimal v).length < nodes.foldl widen 1 + 1) ↔ LastLargest nodes := by
  have hdigits : ∀ v ∈ nodes, ∀ k, 0 < k → ((decimal v).length < k + 1 ↔ v < 10 ^ k) := by
    intro v hv k hk
    rw [Nat.lt_succ_iff, length_decimal_le (hlabels v hv).1 hk]
  rw [foldl_widen, LastLargest]
  cases hlast : (nodes.filter (10 ≤ ·)).getLast? with
  | none =>
      constructor
      · intro _ last hmem
        cases hmem
      · intro _ v hv
        exact (hdigits v hv 1 Nat.one_pos).mpr (lt_ten_of_getLast?_filter hlast v hv)
  | some last =>
      simp only [Option.mem_def, Option.some.injEq, forall_eq']
      by_cases hhundred : last < 100
      · rw [if_pos hhundred]
        constructor
        · rintro hfits ⟨v, hv, hlarge⟩
          have hsmall := (hdigits v hv 2 Nat.two_pos).mp (hfits v hv)
          omega
        · intro hlargest v hv
          refine (hdigits v hv 2 Nat.two_pos).mpr ?_
          by_contra hlarge
          have := hlargest ⟨v, hv, by omega⟩
          omega
      · rw [if_neg hhundred]
        constructor
        · intro _ _
          exact Int.not_lt.mp hhundred
        · intro _ v hv
          exact (hdigits v hv 3 (by decide)).mpr (hlabels v hv).2

/-- The width without its blank is the number of digits of a label. -/
theorem exists_widest {nodes : List Int} (hlabels : ∀ v ∈ nodes, 0 ≤ v ∧ v < 1000)
    (hne : nodes ≠ []) : ∃ v ∈ nodes, (decimal v).length = nodes.foldl widen 1 := by
  have hdigits : ∀ v ∈ nodes, ∀ k, 0 < k → v < 10 ^ (k + 1) → ¬ v < 10 ^ k →
      (decimal v).length = k + 1 := by
    intro v hv k hk hlt hnot
    have hle := (length_decimal_le (hlabels v hv).1 (Nat.succ_pos k)).mpr hlt
    have hgt := mt (length_decimal_le (hlabels v hv).1 hk).mp hnot
    omega
  rw [foldl_widen]
  cases hlast : (nodes.filter (10 ≤ ·)).getLast? with
  | none =>
      obtain ⟨v, hv⟩ := List.exists_mem_of_ne_nil nodes hne
      have hle := (length_decimal_le (hlabels v hv).1 Nat.one_pos).mpr
        (lt_ten_of_getLast?_filter hlast v hv)
      have hpos : 0 < (decimal v).length := by
        obtain ⟨n, rfl⟩ := Int.eq_ofNat_of_zero_le (hlabels v hv).1
        exact Nat.length_toDigits_pos
      exact ⟨v, hv, Nat.le_antisymm hle hpos⟩
  | some last =>
      obtain ⟨hmem, hten⟩ := mem_of_getLast?_filter hlast
      refine ⟨last, hmem, ?_⟩
      by_cases hhundred : last < 100
      · simp only [if_pos hhundred]
        exact hdigits last hmem 1 Nat.one_pos hhundred (by omega)
      · simp only [if_neg hhundred]
        exact hdigits last hmem 2 Nat.two_pos (hlabels last hmem).2 (by omega)

end Width

section Rows

variable {g : Graph Int}

/-- A loop that reads one node a round is a loop over the nodes. -/
theorem foldlM_getNode {σ : Type} (hlength : g.nodes.length = g.nodeNum) (f : σ → Int → σ)
    (s : σ) :
    ((List.range g.nodeNum).foldlM (fun s i => do return f s (← getNode g.nodes i)) s :
      Except Fault σ) = .ok (g.nodes.foldl f s) := by
  have hround : ∀ i, i < g.nodeNum → ∀ t, t = (g.nodes.take i).foldl f s →
      ∃ t', (do return f t (← getNode g.nodes i) : Except Fault σ) = .ok t' ∧
        t' = (g.nodes.take (i + 1)).foldl f s := by
    rintro i hi t rfl
    have hnode : i < g.nodes.length := by omega
    refine ⟨f _ g.nodes[i], by rw [getNode_eq_ok hnode]; rfl, ?_⟩
    rw [List.take_add_one, List.getElem?_eq_getElem hnode, Option.toList_some,
      List.foldl_append]
    rfl
  obtain ⟨t, hloop, ht⟩ := foldlM_range_ok (s := s)
    (fun i t => t = (g.nodes.take i).foldl f s) rfl hround
  rw [hloop, ht, ← hlength, List.take_length]

theorem cellWidth_eq (hlength : g.nodes.length = g.nodeNum) :
    cellWidth g = .ok (g.nodes.foldl widen 1 + 1) := by
  rw [cellWidth, foldlM_getNode hlength]
  rfl

theorem labelRow_eq (hlength : g.nodes.length = g.nodeNum) (max : Nat) :
    labelRow g max =
      .ok (prefixSpace max ++ ((g.nodes.map decimal).map (setw max)).flatten) := by
  rw [labelRow, foldlM_getNode hlength fun ss v => ss ++ setw max (decimal v),
    List.foldl_append_eq_append, List.map_map]
  rfl

theorem indexRow_eq (g : Graph Int) (max : Nat) :
    indexRow g max = prefixSpace max ++
      (((List.range g.nodeNum).map fun (i : Nat) => decimal i).map (setw max)).flatten := by
  rw [indexRow, List.foldl_append_eq_append, List.map_map]
  rfl

theorem dashRow_eq (g : Graph Int) (max : Nat) :
    dashRow g max = prefixSpace max ++
      (((List.range g.nodeNum).map fun _ => ['-']).map (setw max)).flatten := by
  rw [dashRow, List.foldl_append_eq_append, List.map_map]
  rfl

theorem matrixRow_ok (h : WellFormed g) (max : Nat) {i : Nat} (hi : i < g.nodeNum) :
    ∃ row, matrixRow g max i = .ok row := by
  have hnode : i < g.nodes.length := by rw [h.nodes_length]; exact hi
  have hround : ∀ j, j < g.nodeNum → ∀ ss : Str, True → ∃ ss', (do
      let value ← getCell g.edges i j
      return ss ++ setw max (if value = dummyValue then [' '] else decimal value) :
        Except Fault Str) = .ok ss' ∧ True := by
    intro j hj ss _
    obtain ⟨value, hvalue⟩ := h.square.exists_cell hi hj
    exact ⟨_, by rw [getCell_eq_ok hvalue, ok_bind, pure_eq_ok], trivial⟩
  obtain ⟨row, hloop, -⟩ := foldlM_range_ok (fun _ _ => True) trivial hround
  exact ⟨row, by rw [matrixRow, getNode_eq_ok hnode]; exact hloop⟩

/-- The rows behind the header are appended to it. -/
theorem matrixRows_ok (h : WellFormed g) (max : Nat) (ss : Str) :
    ∃ rest, (List.range g.nodeNum).foldlM (fun ss i => do
      return ss ++ (← matrixRow g max i) ++ ['\n']) ss = (.ok (ss ++ rest) : Except Fault Str) := by
  have hround : ∀ i, i < g.nodeNum → ∀ t, (∃ rest, t = ss ++ rest) →
      ∃ t', (do return t ++ (← matrixRow g max i) ++ ['\n'] : Except Fault Str) = .ok t' ∧
        ∃ rest, t' = ss ++ rest := by
    rintro i hi t ⟨rest, rfl⟩
    obtain ⟨row, hrow⟩ := matrixRow_ok h max hi
    exact ⟨_, by rw [hrow, ok_bind, pure_eq_ok], rest ++ row ++ ['\n'], by simp⟩
  obtain ⟨t, hloop, rest, rfl⟩ := foldlM_range_ok (s := ss) (fun _ t => ∃ rest, t = ss ++ rest)
    ⟨[], (List.append_nil ss).symm⟩ hround
  exact ⟨rest, hloop⟩

theorem toString_eq (h : WellFormed g) (hne : g.nodeNum ≠ 0) {max : Nat} {labels : Str}
    (hmax : cellWidth g = .ok max) (hlabels : labelRow g max = .ok labels) :
    ∃ rest, toString g = .ok (labels ++ '\n' :: (indexRow g max ++ '\n' ::
      (dashRow g max ++ '\n' :: rest))) := by
  obtain ⟨rest, hrows⟩ := matrixRows_ok h max
    (labels ++ ['\n'] ++ indexRow g max ++ ['\n'] ++ dashRow g max ++ ['\n'])
  refine ⟨rest, ?_⟩
  rw [toString, if_neg hne, hmax]
  simp only [ok_bind, hlabels, hrows]
  simp

end Rows

section Header

theorem notMem_setw {max : Nat} {text : Str} (h : '\n' ∉ text) : '\n' ∉ setw max text := by
  intro hmem
  rcases mem_pad hmem with heq | hmem
  · exact absurd heq (by decide)
  · exact h hmem

theorem notMem_decimal (v : Int) : '\n' ∉ decimal v := by
  intro hmem
  cases v with
  | ofNat n => exact absurd (isDigit_of_mem hmem) (by decide)
  | negSucc n =>
      rcases List.mem_cons.mp hmem with heq | hmem
      · exact absurd heq (by decide)
      · exact absurd (isDigit_of_mem hmem) (by decide)

theorem notMem_row {max : Nat} {texts : List Str} (h : ∀ text ∈ texts, '\n' ∉ text) :
    '\n' ∉ prefixSpace max ++ (texts.map (setw max)).flatten := by
  intro hmem
  rcases List.mem_append.mp hmem with hblank | hcell
  · exact absurd (List.eq_of_mem_replicate hblank) (by decide)
  · obtain ⟨cell, hcell, hmem⟩ := List.mem_flatten.mp hcell
    obtain ⟨text, htext, rfl⟩ := List.mem_map.mp hcell
    exact notMem_setw (h text htext) hmem

/-- The first line of a text. -/
theorem line_unique {line line' rest rest' : Str} (h : '\n' ∉ line) (h' : '\n' ∉ line')
    (heq : line ++ '\n' :: rest = line' ++ '\n' :: rest') : line = line' ∧ rest = rest' := by
  induction line generalizing line' with
  | nil =>
      cases line' with
      | nil => exact ⟨rfl, (List.cons.inj heq).2⟩
      | cons c line' => exact absurd ((List.cons.inj heq).1 ▸ List.mem_cons_self) h'
  | cons c line ih =>
      cases line' with
      | nil => exact absurd ((List.cons.inj heq).1.symm ▸ List.mem_cons_self) h
      | cons d line' =>
          obtain ⟨rfl, htail⟩ := List.cons.inj heq
          obtain ⟨rfl, hrest⟩ := ih (fun hmem => h (List.mem_cons_of_mem c hmem))
            (fun hmem => h' (List.mem_cons_of_mem c hmem)) htail
          exact ⟨rfl, hrest⟩

def indices (g : Graph Int) : List Str :=
  (List.range g.nodeNum).map fun (i : Nat) => decimal i

def dashes (g : Graph Int) : List Str :=
  (List.range g.nodeNum).map fun _ => ['-']

/-- The first three lines show the labels, the indices and the dashes in columns of width
`max` behind the same blanks. -/
def HeaderAligned (g : Graph Int) (max : Nat) (text : Str) : Prop :=
  ∃ line line' line'' rest,
    text = line ++ '\n' :: (line' ++ '\n' :: (line'' ++ '\n' :: rest)) ∧
    ('\n' ∉ line ∧ '\n' ∉ line' ∧ '\n' ∉ line'') ∧
    Aligned ' ' (max * 2 + 3) max (g.nodes.map decimal) line ∧
    Aligned ' ' (max * 2 + 3) max (indices g) line' ∧
    Aligned ' ' (max * 2 + 3) max (dashes g) line''

variable {g : Graph Int} {max : Nat} {text : Str}

theorem one_lt_width (nodes : List Int) : 1 < nodes.foldl widen 1 + 1 := by
  rw [foldl_widen]
  split
  · decide
  · split <;> decide

theorem notMem_labels (g : Graph Int) : ∀ text ∈ g.nodes.map decimal, '\n' ∉ text := by
  intro text hmem
  obtain ⟨v, -, rfl⟩ := List.mem_map.mp hmem
  exact notMem_decimal v

theorem notMem_indices (g : Graph Int) : ∀ text ∈ indices g, '\n' ∉ text := by
  intro text hmem
  obtain ⟨i, -, rfl⟩ := List.mem_map.mp hmem
  exact notMem_decimal i

theorem eq_of_mem_dashes (h : text ∈ dashes g) : text = ['-'] := by
  obtain ⟨i, -, rfl⟩ := List.mem_map.mp h
  rfl

theorem notMem_dashes (g : Graph Int) : ∀ text ∈ dashes g, '\n' ∉ text := by
  intro text hmem
  rw [eq_of_mem_dashes hmem]
  decide

theorem length_prefixSpace (max : Nat) : (prefixSpace max).length = max * 2 + 3 :=
  List.length_replicate

theorem aligned_dashRow (h : WellFormed g) (hmax : cellWidth g = .ok max) :
    Aligned ' ' (max * 2 + 3) max (dashes g) (dashRow g max) := by
  have hsame := Except.ok.inj (hmax.symm.trans (cellWidth_eq h.nodes_length))
  rw [dashRow_eq]
  refine (aligned_iff (length_prefixSpace max)).mpr fun text hmem => ?_
  rw [eq_of_mem_dashes hmem, hsame]
  exact one_lt_width g.nodes

/-- The text has these three lines, so that they are the rows of the header. -/
theorem headerAligned_iff (h : WellFormed g) (hne : g.nodeNum ≠ 0) (hmax : cellWidth g = .ok max)
    (htext : toString g = .ok text) :
    HeaderAligned g max text ↔ (∀ v ∈ g.nodes, (decimal v).length < max) ∧
      ∀ i : Nat, i < g.nodeNum → (decimal i).length < max := by
  obtain ⟨rest, hrows⟩ := toString_eq h hne hmax (labelRow_eq h.nodes_length max)
  obtain rfl := Except.ok.inj (hrows.symm.trans htext)
  have hprefix := length_prefixSpace max
  have hline := indexRow_eq g max
  have hline' := dashRow_eq g max
  constructor
  · rintro ⟨line, line', line'', rest', heq, ⟨hl, hl', hl''⟩, hfirst, hsecond, -⟩
    obtain ⟨rfl, hbehind⟩ := line_unique (notMem_row (notMem_labels g)) hl heq
    obtain ⟨rfl, -⟩ := line_unique (hline ▸ notMem_row (notMem_indices g)) hl' hbehind
    rw [hline] at hsecond
    refine ⟨fun v hv => ?_, fun i hi => ?_⟩
    · exact (aligned_iff hprefix).mp hfirst _ (List.mem_map_of_mem hv)
    · exact (aligned_iff hprefix).mp hsecond _ (List.mem_map_of_mem (List.mem_range.mpr hi))
  · rintro ⟨hfit, hfit'⟩
    refine ⟨_, _, _, rest, rfl, ⟨notMem_row (notMem_labels g),
      hline ▸ notMem_row (notMem_indices g), hline' ▸ notMem_row (notMem_dashes g)⟩,
      (aligned_iff hprefix).mpr ?_, ?_, aligned_dashRow h hmax⟩
    · intro text hmem
      obtain ⟨v, hv, rfl⟩ := List.mem_map.mp hmem
      exact hfit v hv
    · rw [hline]
      refine (aligned_iff hprefix).mpr fun text hmem => ?_
      obtain ⟨i, hi, rfl⟩ := List.mem_map.mp hmem
      exact hfit' i (List.mem_range.mp hi)

end Header

theorem width_fits_iff (g : Graph Int) (built : Built g)
    (hlabels : ∀ v ∈ g.nodes, 0 ≤ v ∧ v < 1000) :
    ∃ max text, cellWidth g = .ok max ∧ toString g = .ok text ∧
      ((∀ v ∈ g.nodes, (decimal v).length < max) ↔ LastLargest g.nodes) ∧
      ((g.nodeNum ≠ 0 → HeaderAligned g max text) ↔ LastLargest g.nodes ∧
        ∀ i : Nat, i < g.nodeNum → ∃ v ∈ g.nodes, (decimal i).length ≤ (decimal v).length) := by
  have h := wellFormed_of_built built
  have hmax := cellWidth_eq h.nodes_length
  have hfits := fits_iff hlabels
  by_cases hne : g.nodeNum = 0
  · have hnodes : g.nodes = [] := List.length_eq_zero_iff.mp (h.nodes_length.trans hne)
    refine ⟨_, "[EMPTY GRAPH]".toList, hmax, by rw [toString, if_pos hne]; rfl, hfits, ?_⟩
    rw [← hfits]
    simp [hne, hnodes]
  · have hnodes : g.nodes ≠ [] := by
      rintro hnil
      exact hne (by rw [← h.nodes_length, hnil]; rfl)
    obtain ⟨rest, htext⟩ := toString_eq h hne hmax (labelRow_eq h.nodes_length _)
    refine ⟨_, _, hmax, htext, hfits, ?_⟩
    obtain ⟨widest, hmem, hwidest⟩ := exists_widest hlabels hnodes
    rw [forall_prop_of_true hne, headerAligned_iff h hne hmax htext, hfits]
    refine and_congr_right fun hlargest => forall₂_congr fun i hi => ?_
    constructor
    · intro hlt
      exact ⟨widest, hmem, by omega⟩
    · rintro ⟨v, hv, hle⟩
      have hlt := hfits.mpr hlargest v hv
      omega

def ascending : Graph Int :=
  .ofNodes [7, 10, 100] true

theorem width_fits_ascending :
    ∃ max text, cellWidth ascending = .ok max ∧ toString ascending = .ok text ∧
      HeaderAligned ascending max text := by
  obtain ⟨max, text, hmax, htext, -, haligned⟩ :=
    width_fits_iff ascending (.ofNodes [7, 10, 100] true) (by decide)
  refine ⟨max, text, hmax, htext, haligned.mpr ⟨?_, fun i hi => ?_⟩ (by decide)⟩
  · rintro last hlast -
    obtain rfl : 100 = last := Option.some.inj hlast
    decide
  · refine ⟨7, by decide, ?_⟩
    have hsmall : (i : Int) < 10 ^ 1 := by
      have hthree : i < 3 := hi
      omega
    exact (length_decimal_le (Int.natCast_nonneg i) Nat.one_pos).mpr hsmall

/-- The 10 behind the 100 leaves a width of 3. -/
theorem width_too_small :
    ¬ ∀ g : Graph Int, Built g → (∀ v ∈ g.nodes, 0 ≤ v ∧ v < 1000) →
      ∀ max, cellWidth g = .ok max → ∀ v ∈ g.nodes, (decimal v).length < max := by
  intro h
  have hmax : cellWidth (.ofNodes [100, 10] true) = .ok 3 := rfl
  exact absurd (h _ (.ofNodes [100, 10] true) (by decide) 3 hmax 100 (by decide)) (by decide)

end SkUtils.Containers.GraphPrinting
