import Mathlib

/-!
Counted loops over an explicit state, and runs of a step function.

`forRange lo hi body s` is `for (i = lo; i < hi; i++) s = body i s`. It does
nothing when `hi ≤ lo`. `forRange_inv` is the loop rule: an invariant indexed by
the counter, true at `lo` and carried by one iteration, holds at `hi`. `run step`
performs a list of steps, any of which may be undefined; `run_inv` is its rule.
`GuardedRun` is the same for runs whose steps all meet a condition.
-/

namespace Kurios.Base

open List Option Function

variable {p : Prop}

/-- A value of an updated function is the new one or an old one. -/
theorem update_cases {α β : Type*} [DecidableEq α] {f : α → β} {a b x y}
    (h : update f a x b = y) : b = a ∧ x = y ∨ b ≠ a ∧ f b = y := by
  by_cases hb : b = a
  · rw [hb, update_self] at h
    exact .inl ⟨hb, h⟩
  · rw [update_of_ne hb] at h
    exact .inr ⟨hb, h⟩

variable {σ : Type}

def forRange (lo hi : Nat) (body : Nat → σ → σ) (s : σ) : σ :=
  (range' lo (hi - lo)).foldl (fun s i => body i s) s

theorem forRange_of_le {lo hi} (h : hi ≤ lo) (body : Nat → σ → σ) (s : σ) :
    forRange lo hi body s = s := by
  simp [forRange, Nat.sub_eq_zero_of_le h]

/-- The last iteration of a loop that runs at least once. -/
theorem forRange_succ {lo hi} (h : lo ≤ hi) (body : Nat → σ → σ) (s : σ) :
    forRange lo (hi + 1) body s = body hi (forRange lo hi body s) := by
  have hlen : hi + 1 - lo = (hi - lo) + 1 := by omega
  have hlast : lo + (hi - lo) = hi := by omega
  simp [forRange, hlen, range'_concat, hlast]

/-- A loop in two parts. -/
theorem forRange_add (n k : Nat) (body : Nat → σ → σ) (s : σ) :
    forRange 0 (n + k) body s = forRange 0 k (fun i => body (n + i)) (forRange 0 n body s) := by
  induction k with
  | zero => rw [forRange_of_le (le_refl 0), Nat.add_zero]
  | succ k ih =>
    rw [← add_assoc, forRange_succ zero_le, forRange_succ zero_le, ih]

variable {body : Nat → σ → σ}

/-- The loop rule. -/
theorem forRange_inv (Inv : Nat → σ → Prop) {lo hi s} (hle : lo ≤ hi) (start : Inv lo s)
    (step : ∀ i s, lo ≤ i → i < hi → Inv i s → Inv (i + 1) (body i s)) :
    Inv hi (forRange lo hi body s) := by
  induction hi, hle using Nat.le_induction with
  | base => rwa [forRange_of_le (le_refl lo)]
  | succ n hn ih =>
    rw [forRange_succ hn]
    exact step n _ hn (lt_add_one n) (ih fun i s hi hlt => step i s hi (by omega))

/-- A property every iteration preserves is preserved by the loop. -/
theorem forRange_preserves {P : σ → Prop} {lo hi s} (start : P s)
    (step : ∀ i s, P s → P (body i s)) : P (forRange lo hi body s) := by
  rcases Nat.le_total lo hi with h | h
  · exact forRange_inv (fun _ => P) h start fun i s _ _ => step i s
  · rwa [forRange_of_le h]

/-- A step that is taken under a condition. -/
theorem ite_eq_some [Decidable p] {a b : σ} (h : (if p then some a else none) = some b) :
    p ∧ a = b :=
  (ite_none_right_eq_some.mp h).imp_right some.inj

theorem ite_map_eq_some {α : Type*} [Decidable p] {o} {f : α → σ} {b}
    (h : (if p then o.map f else none) = some b) : p ∧ ∃ a, o = some a ∧ f a = b :=
  (ite_none_right_eq_some.mp h).imp_right map_eq_some_iff.mp

/-! ### Runs -/

section Run

variable {σ α : Type*} {step : σ → α → Option σ}

/-- The steps `as` one after the other; undefined when one of them is. -/
def run (step : σ → α → Option σ) (s : σ) (as : List α) : Option σ := as.foldlM step s

@[simp] theorem run_nil (s : σ) : run step s [] = some s := rfl

variable {as : List α}

theorem run_cons {s s' a} :
    run step s (a :: as) = some s' ↔ ∃ t, step s a = some t ∧ run step t as = some s' := by
  simp [run, foldlM_cons, bind_eq_some_iff]

/-- What every step preserves holds after every run. -/
theorem run_inv (Inv : σ → Prop) (hstep : ∀ s a s', Inv s → step s a = some s' → Inv s') {s s'}
    (hs : Inv s) (hrun : run step s as = some s') : Inv s' := by
  induction as generalizing s with
  | nil =>
    obtain rfl : s = s' := by simpa using hrun
    exact hs
  | cons a as ih =>
    obtain ⟨t, hfirst, hrest⟩ := run_cons.mp hrun
    exact ih (hstep s a t hs hfirst) hrest

/-- A run all of whose steps meet a condition. -/
inductive GuardedRun (step : σ → α → Option σ) (guard : σ → α → Prop) : σ → List α → σ → Prop
  | nil (s : σ) : GuardedRun step guard s [] s
  | cons {s t s' : σ} {a : α} {as : List α} (hguard : guard s a) (hstep : step s a = some t)
    (hrest : GuardedRun step guard t as s') : GuardedRun step guard s (a :: as) s'

variable {guard : σ → α → Prop}

/-- What every step that meets the condition preserves holds after every such run. -/
theorem GuardedRun.inv (Inv : σ → Prop)
    (hstep : ∀ s a s', Inv s → guard s a → step s a = some s' → Inv s') {s s'} (hs : Inv s)
    (hrun : GuardedRun step guard s as s') : Inv s' := by
  induction hrun with
  | nil => exact hs
  | cons hguard hfirst _ ih => exact ih (hstep _ _ _ hs hguard hfirst)

/-- A run that checks the condition as it goes. -/
theorem GuardedRun.of_checked {check : σ → α → Bool} {s s'}
    (hcheck : ∀ s a, check s a = true → guard s a)
    (hrun : run (fun s a => if check s a then step s a else none) s as = some s') :
    GuardedRun step guard s as s' := by
  induction as generalizing s with
  | nil =>
    obtain rfl : s = s' := by simpa using hrun
    exact .nil s
  | cons a as ih =>
    obtain ⟨t, hfirst, hrest⟩ := run_cons.mp hrun
    split at hfirst
    case isFalse => cases hfirst
    case isTrue hok => exact .cons (hcheck s a hok) hfirst (ih hrest)

theorem guardedRun_iff [∀ s a, Decidable (guard s a)] {s s'} :
    GuardedRun step guard s as s' ↔
      run (fun s a => if decide (guard s a) then step s a else none) s as = some s' := by
  refine ⟨fun hrun => ?_, GuardedRun.of_checked fun _ _ => of_decide_eq_true⟩
  induction hrun with
  | nil => rfl
  | cons hguard hstep _ ih =>
    exact run_cons.mpr ⟨_, (if_pos (decide_eq_true hguard)).trans hstep, ih⟩

/-! What a run computes is decided by performing it. -/

instance decidableExistsSome {o : Option α} {P : α → Prop} [DecidablePred P] :
    Decidable (∃ a, o = some a ∧ P a) :=
  match o with
  | none => isFalse nofun
  | some a => decidable_of_iff (P a)
      ⟨fun h => ⟨a, rfl, h⟩, fun ⟨_, heq, h⟩ => some.inj heq ▸ h⟩

instance {guard : σ → α → Prop} [∀ s a, Decidable (guard s a)] {s : σ} {as : List α}
    {P : σ → Prop} [DecidablePred P] : Decidable (∃ s', GuardedRun step guard s as s' ∧ P s') :=
  decidable_of_iff (∃ s', run (fun s a => if decide (guard s a) then step s a else none) s as =
    some s' ∧ P s') (by simp only [guardedRun_iff])

/-! What is decided of a result is extended by what follows from it. -/

section Extend

variable {β : Type*} {p q q' q'' r : α → Prop}

theorem exists_of (h : ∃ a, p a ∧ True) (hr : ∀ a, p a → r a) : ∃ a, p a ∧ r a :=
  h.imp fun a ha => ⟨ha.1, hr a ha.1⟩

theorem exists_and_of (h : ∃ a, p a ∧ q a) (hr : ∀ a, p a → q a → r a) : ∃ a, p a ∧ q a ∧ r a :=
  h.imp fun a ha => ⟨ha.1, ha.2, hr a ha.1 ha.2⟩

theorem exists_and_of₂ (h : ∃ a, p a ∧ q a ∧ q' a) (hr : ∀ a, p a → q a → q' a → r a) :
    ∃ a, p a ∧ q a ∧ q' a ∧ r a :=
  h.imp fun a ⟨hp, hq, hq'⟩ => ⟨hp, hq, hq', hr a hp hq hq'⟩

theorem exists_and_of₃ (h : ∃ a, p a ∧ q a ∧ q' a ∧ q'' a)
    (hr : ∀ a, p a → q a → q' a → q'' a → r a) : ∃ a, p a ∧ q a ∧ q' a ∧ q'' a ∧ r a :=
  h.imp fun a ⟨hp, hq, hq', hq''⟩ => ⟨hp, hq, hq', hq'', hr a hp hq hq' hq''⟩

/-- The second result starts from the first. -/
theorem exists₂_and_of {p' q r : α → β → Prop} (h : ∃ a, p a ∧ ∃ b, p' a b ∧ q a b)
    (hr : ∀ a b, p a → p' a b → q a b → r a b) : ∃ a b, p a ∧ p' a b ∧ q a b ∧ r a b := by
  obtain ⟨a, hp, b, hp', hq⟩ := h
  exact ⟨a, b, hp, hp', hq, hr a b hp hp' hq⟩

end Extend

end Run

end Kurios.Base
