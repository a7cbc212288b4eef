import Mathlib.Data.List.Basic

/-!
Programs in `Except` and their counted loops: a loop whose rounds keep an invariant and
do not fail ends without a fault, and a round that fails ends the loop with its fault.
-/

namespace SkUtils.Library.CheckedLoop

variable {ε α β σ : Type*}

section Bind

variable {α β : Type _}

@[simp] theorem pure_eq_ok (a : α) : (pure a : Except ε α) = .ok a :=
  rfl

@[simp] theorem ok_bind (a : α) (f : α → Except ε β) : Except.ok a >>= f = f a :=
  rfl

@[simp] theorem error_bind (e : ε) (f : α → Except ε β) :
    (Except.error e : Except ε α) >>= f = .error e :=
  rfl

theorem bind_eq_ok {x : Except ε α} {f : α → Except ε β} {b : β} :
    x >>= f = .ok b ↔ ∃ a, x = .ok a ∧ f a = .ok b := by
  cases x with
  | error e => simp
  | ok a => simp

end Bind

section Collect

theorem mapM_eq_ok {α β : Type} {f : α → Except ε β} {g : α → β} {as : List α}
    (h : ∀ a ∈ as, f a = .ok (g a)) : as.mapM f = .ok (as.map g) := by
  induction as with
  | nil => rfl
  | cons a as ih =>
      rw [List.mapM_cons, h a List.mem_cons_self,
        ih fun b hb => h b (List.mem_cons_of_mem a hb)]
      rfl

theorem mapM_eq_error {α β : Type} {f : α → Except ε β} {e : ε} {as : List α}
    (hfails : ∃ a ∈ as, f a = .error e)
    (honly : ∀ a ∈ as, (∃ b, f a = .ok b) ∨ f a = .error e) : as.mapM f = .error e := by
  induction as with
  | nil => simp at hfails
  | cons a as ih =>
      obtain ⟨hfirst, hrest⟩ := List.forall_mem_cons.mp honly
      rw [List.mapM_cons]
      rcases hfirst with ⟨b, hok⟩ | herror
      · obtain ⟨a', ha', hfail⟩ := hfails
        have hmem : a' ∈ as := by
          rcases List.mem_cons.mp ha' with rfl | hmem
          · rw [hok] at hfail
            exact absurd hfail nofun
          · exact hmem
        rw [hok, ok_bind, ih ⟨a', hmem, hfail⟩ hrest, error_bind]
      · rw [herror, error_bind]

end Collect

section Fold

variable {body : σ → α → Except ε σ} {as : List α}

/-- No round of a loop that ends without a fault has failed. -/
theorem ok_of_foldlM_ok {s t : σ} (h : as.foldlM body s = .ok t) :
    ∀ a ∈ as, ∃ s t, body s a = .ok t := by
  induction as generalizing s with
  | nil => exact nofun
  | cons a as ih =>
      rw [List.foldlM_cons] at h
      obtain ⟨next, hfirst, hrest⟩ := bind_eq_ok.mp h
      exact List.forall_mem_cons.mpr ⟨⟨s, next, hfirst⟩, ih hrest⟩

end Fold

section Appending

/-- A program that adds the elements with `P` to the list it is given. -/
def Appends (run : List β → Except ε (List β)) (P : β → Prop) : Prop :=
  ∃ found, (∀ bs, run bs = .ok (bs ++ found)) ∧ ∀ b, b ∈ found ↔ P b

variable {P Q : β → Prop}

theorem appends_nil (h : ∀ b, ¬ P b) :
    Appends (fun bs => (pure bs : Except ε (List β))) P :=
  ⟨[], fun bs => by rw [List.append_nil]; rfl, fun b => by simp [h]⟩

theorem Appends.congr {run : List β → Except ε (List β)} (h : Appends run P)
    (hiff : ∀ b, P b ↔ Q b) : Appends run Q := by
  obtain ⟨found, hrun, hmem⟩ := h
  exact ⟨found, hrun, fun b => (hmem b).trans (hiff b)⟩

theorem appends_foldlM {body : List β → α → Except ε (List β)} {P : α → β → Prop} {as : List α}
    (h : ∀ a ∈ as, Appends (fun bs => body bs a) (P a)) :
    Appends (fun bs => as.foldlM body bs) fun b => ∃ a ∈ as, P a b := by
  induction as with
  | nil => exact appends_nil fun b => by simp
  | cons a as ih =>
      obtain ⟨hfirst, hrest⟩ := List.forall_mem_cons.mp h
      obtain ⟨first, hrun, hmem⟩ := hfirst
      obtain ⟨rest, hloop, hmemRest⟩ := ih hrest
      refine ⟨first ++ rest, fun bs => ?_, fun b => ?_⟩
      · have hround : body bs a = .ok (bs ++ first) := hrun bs
        have hloop : as.foldlM body (bs ++ first) = .ok (bs ++ first ++ rest) := hloop _
        change (a :: as).foldlM body bs = _
        rw [List.foldlM_cons, hround, ok_bind, hloop, List.append_assoc]
      · simp [hmem, hmemRest]

end Appending

section CountedLoop

variable {body : σ → Nat → Except ε σ} {s : σ} {m : Nat}

theorem foldlM_range'_ok {start : Nat} (inv : Nat → σ → Prop) (hinit : inv start s)
    (hround : ∀ i, start ≤ i → i < start + m → ∀ t, inv i t →
      ∃ t', body t i = .ok t' ∧ inv (i + 1) t') :
    ∃ t, (List.range' start m).foldlM body s = .ok t ∧ inv (start + m) t := by
  induction m with
  | zero => exact ⟨s, rfl, hinit⟩
  | succ m ih =>
      obtain ⟨t, hloop, ht⟩ := ih fun i hstart hi => hround i hstart (by omega)
      obtain ⟨t', hbody, ht'⟩ := hround (start + m) (by omega) (by omega) t ht
      refine ⟨t', ?_, ht'⟩
      rw [List.range'_concat, Nat.one_mul, List.foldlM_append, hloop]
      simp [hbody]

theorem foldlM_range_ok (inv : Nat → σ → Prop) (hinit : inv 0 s)
    (hround : ∀ i, i < m → ∀ t, inv i t → ∃ t', body t i = .ok t' ∧ inv (i + 1) t') :
    ∃ t, (List.range m).foldlM body s = .ok t ∧ inv m t := by
  rw [List.range_eq_range']
  obtain ⟨t, hloop, ht⟩ := foldlM_range'_ok (m := m) inv hinit fun i _ hi =>
    hround i (by omega)
  rw [Nat.zero_add] at ht
  exact ⟨t, hloop, ht⟩

theorem foldlM_range_error {i : Nat} {t : σ} {e : ε} (hi : i < m)
    (hloop : (List.range i).foldlM body s = .ok t) (hbody : body t i = .error e) :
    (List.range m).foldlM body s = .error e := by
  induction m with
  | zero => omega
  | succ m ih =>
      rw [List.range_succ, List.foldlM_append]
      rcases Nat.lt_succ_iff_lt_or_eq.mp hi with hlt | rfl
      · rw [ih hlt]
        rfl
      · rw [hloop]
        simp [hbody]

end CountedLoop

end SkUtils.Library.CheckedLoop
