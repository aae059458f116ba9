/-! Lists without their repetitions. What comes again is filtered out after its first
occurrence, so proofs go by induction on the filtered rest. -/

namespace PathQuery

variable {α : Type}

theorem eraseDups_induct [BEq α] {P : List α → Prop} (nil : P [])
    (cons : ∀ a as, P (as.filter fun b => !b == a) → P (a :: as)) (as : List α) : P as := by
  induction hn : as.length using Nat.strongRecOn generalizing as with
  | ind n ih =>
    cases as with
    | nil => exact nil
    | cons a as =>
      have hle := List.length_filter_le (fun b => !b == a) as
      rw [List.length_cons] at hn
      exact cons a as (ih _ (by omega) _ rfl)

/-- Each number of an ordered list once, from the first on. -/
theorem eraseDups_pairwise_lt (is : List Nat) (h : is.Pairwise (· ≤ ·)) :
    is.eraseDups.Pairwise (· < ·) := by
  induction is using eraseDups_induct with
  | nil => exact List.Pairwise.nil
  | cons i is ih =>
    obtain ⟨hi, hs⟩ := List.pairwise_cons.mp h
    rw [List.eraseDups_cons, List.pairwise_cons]
    constructor
    · intro k hk
      rw [List.mem_eraseDups, List.mem_filter] at hk
      have hle : i ≤ k := hi k hk.1
      have hne : k ≠ i := by simpa using hk.2
      omega
    · exact ih (hs.sublist List.filter_sublist)

/-- A run may leave out repetitions when a step that was taken once changes nothing more. -/
theorem foldlM_eraseDups {σ ε : Type} [BEq α] [LawfulBEq α] {step : σ → α → Except ε σ}
    (Taken : σ → α → Prop) (htake : ∀ s a t, step s a = .ok t → Taken t a)
    (hkeep : ∀ s a b t, Taken s a → step s b = .ok t → Taken t a)
    (hskip : ∀ s a, Taken s a → step s a = .ok s) (s : σ) (as : List α) :
    as.eraseDups.foldlM step s = as.foldlM step s := by
  -- repetitions of a step already taken can be left out
  have hfilter : ∀ (a : α) (bs : List α) (s : σ), Taken s a →
      (bs.filter fun b => !b == a).foldlM step s = bs.foldlM step s := by
    intro a bs
    induction bs with
    | nil => intro s _; rfl
    | cons b bs ih =>
      intro s hs
      by_cases hb : b = a
      · subst hb
        rw [List.filter_cons_of_neg (by simp), List.foldlM_cons, hskip s b hs]
        exact ih s hs
      · rw [List.filter_cons_of_pos (by simpa using hb), List.foldlM_cons, List.foldlM_cons]
        cases ht : step s b with
        | error _ => rfl
        | ok t => exact ih t (hkeep s a b t hs ht)
  induction as using eraseDups_induct generalizing s with
  | nil => rfl
  | cons a as ih =>
    rw [List.eraseDups_cons, List.foldlM_cons, List.foldlM_cons]
    cases ht : step s a with
    | error _ => rfl
    | ok t => exact (ih t).trans (hfilter a as t (htake s a t ht))

end PathQuery
