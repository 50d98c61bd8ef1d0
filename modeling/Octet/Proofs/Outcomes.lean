import Octet.Traced
import Mathlib
/-!
Inversion of computations that may fail: a sequence of steps ends in a value iff each step does.

* `Except.bind_eq_ok`, `Except.bind_eq_error`, `Except.map_eq_ok`: one step after another;
* `Except.bind_ne_error`, `Except.map_ne_error`, `Except.mapM_ne_error`: an error that no step ends in;
* `Except.exists_mem_of_mapM_eq_error`, `Except.mapM_eq_error_congr`: the element that leads to an error;
* `Except.mapM_eq_ok_iff`: one step for each element of a list;
* `Traced.result_mapList`: the same of steps that report.
-/

namespace Octet

variable {ε ω α β : Type}

namespace Except

theorem ok_bind (a : α) (f : α → Except ε β) : (.ok a : Except ε α) >>= f = f a := rfl

theorem bind_eq_ok {x : Except ε α} {f : α → Except ε β} {b : β} :
    x >>= f = .ok b ↔ ∃ a, x = .ok a ∧ f a = .ok b := by
  cases x with
  | error e => exact ⟨fun h => (by cases h), fun ⟨a, h, _⟩ => (by cases h)⟩
  | ok a => exact ⟨fun h => ⟨a, rfl, h⟩, fun ⟨a', h, hf⟩ => by cases h; exact hf⟩

theorem bind_eq_error {x : Except ε α} {f : α → Except ε β} {e : ε} :
    x >>= f = .error e ↔ x = .error e ∨ ∃ a, x = .ok a ∧ f a = .error e := by
  cases x with
  | error e' =>
    refine ⟨fun h => .inl (by cases h; rfl), ?_⟩
    rintro (h | ⟨a, h, -⟩) <;> cases h
    rfl
  | ok a =>
    refine ⟨fun h => .inr ⟨a, rfl, h⟩, ?_⟩
    rintro (h | ⟨a', h, hf⟩) <;> cases h
    exact hf

theorem map_eq_ok {x : Except ε α} {f : α → β} {b : β} :
    f <$> x = .ok b ↔ ∃ a, x = .ok a ∧ f a = b := by
  cases x with
  | error e => exact ⟨fun h => (by cases h), fun ⟨a, h, _⟩ => (by cases h)⟩
  | ok a => exact ⟨fun h => ⟨a, rfl, Except.ok.inj h⟩, fun ⟨a', h, hf⟩ => by cases h; exact congrArg _ hf⟩

theorem bind_ne_error {x : Except ε α} {f : α → Except ε β} {e : ε} (hx : x ≠ .error e)
    (hf : ∀ a, f a ≠ .error e) : x >>= f ≠ .error e := by
  rw [ne_eq, bind_eq_error]
  rintro (h | ⟨a, -, h⟩)
  · exact hx h
  · exact hf a h

theorem map_eq_error {x : Except ε α} {f : α → β} {e : ε} : f <$> x = .error e ↔ x = .error e := by
  cases x with
  | error e' => exact ⟨fun h => congrArg _ (Except.error.inj h), fun h => congrArg _ (Except.error.inj h)⟩
  | ok a => exact ⟨fun h => (by cases h), fun h => (by cases h)⟩

theorem map_ne_error {x : Except ε α} {f : α → β} {e : ε} (h : x ≠ .error e) : f <$> x ≠ .error e :=
  mt map_eq_error.1 h

/-- Some element leads to the error. -/
theorem exists_mem_of_mapM_eq_error {f : α → Except ε β} {xs : List α} {e : ε} (h : xs.mapM f = .error e) :
    ∃ x ∈ xs, f x = .error e := by
  induction xs with
  | nil => cases h
  | cons x xs ih =>
    rw [List.mapM_cons] at h
    rcases bind_eq_error.1 h with h | ⟨y, -, h⟩
    · exact ⟨x, List.mem_cons_self, h⟩
    · rcases bind_eq_error.1 h with h | ⟨ys, -, h⟩
      · obtain ⟨x', hmem, hx⟩ := ih h
        exact ⟨x', List.mem_cons_of_mem _ hmem, hx⟩
      · cases h

/-- An error that no element leads to. -/
theorem mapM_ne_error {f : α → Except ε β} {xs : List α} {e : ε} (h : ∀ x, f x ≠ .error e) :
    xs.mapM f ≠ .error e := fun he =>
  let ⟨x, _, hx⟩ := exists_mem_of_mapM_eq_error he
  h x hx

theorem mapM_eq_ok_iff {f : α → Except ε β} {xs : List α} {ys : List β} :
    xs.mapM f = .ok ys ↔ List.Forall₂ (fun x y => f x = .ok y) xs ys := by
  induction xs generalizing ys with
  | nil =>
    rw [List.mapM_nil, List.forall₂_nil_left_iff]
    exact ⟨fun h => (Except.ok.inj h).symm, fun h => by rw [h]; rfl⟩
  | cons x xs ih =>
    rw [List.mapM_cons, bind_eq_ok]
    constructor
    · rintro ⟨y, hy, h⟩
      obtain ⟨ys', hys, h⟩ := bind_eq_ok.1 h
      cases h
      exact .cons hy (ih.1 hys)
    · intro h
      cases h with
      | cons hy hys => exact ⟨_, hy, bind_eq_ok.2 ⟨_, ih.2 hys, rfl⟩⟩

/-- Steps that are made for each element fail at the first one that fails. -/
theorem mapM_cons_eq_error {f : α → Except ε β} {x : α} {xs : List α} {e : ε} :
    (x :: xs).mapM f = .error e ↔ f x = .error e ∨ (∀ e', f x ≠ .error e') ∧ xs.mapM f = .error e := by
  rw [List.mapM_cons, bind_eq_error]
  refine or_congr_right ⟨?_, ?_⟩
  · rintro ⟨y, hy, h⟩
    rcases bind_eq_error.1 h with h | ⟨ys, -, h⟩
    · exact ⟨fun e' he => (by cases hy.symm.trans he), h⟩
    · cases h
  · rintro ⟨hx, h⟩
    cases hf : f x with
    | error e' => exact absurd hf (hx e')
    | ok y => exact ⟨y, rfl, bind_eq_error.2 (.inl h)⟩

/-- Where two steps fail for the same elements and alike, they fail for a list alike. -/
theorem mapM_eq_error_congr {γ : Type} {f : α → Except ε β} {g : α → Except ε γ} {xs : List α}
    (h : ∀ x ∈ xs, ∀ e, f x = .error e ↔ g x = .error e) (e : ε) :
    xs.mapM f = .error e ↔ xs.mapM g = .error e := by
  induction xs with
  | nil => exact ⟨fun h => (by cases h), fun h => (by cases h)⟩
  | cons x xs ih =>
    obtain ⟨hx, hxs⟩ := List.forall_mem_cons.1 h
    simp only [mapM_cons_eq_error, ne_eq, hx, ih hxs]

/-- A function of the elements may be applied while the list is made. -/
theorem map_mapM {γ : Type} (k : β → γ) (f : α → Except ε β) (xs : List α) :
    (List.map k) <$> xs.mapM f = xs.mapM fun x => k <$> f x := by
  induction xs with
  | nil => rfl
  | cons x xs ih =>
    rw [List.mapM_cons, List.mapM_cons, ← ih]
    cases f x with
    | error e => rfl
    | ok y => cases xs.mapM f <;> rfl

end Except

namespace Traced

/-- What follows a value goes on from it. -/
theorem mk_bind (reports : List ω) (a : α) (f : α → Traced ω ε β) :
    (⟨reports, .ok a⟩ : Traced ω ε α) >>= f = ⟨reports ++ (f a).reports, (f a).result⟩ := rfl

/-- A report made under a condition changes no result. -/
theorem result_emit_if (c : Prop) [Decidable c] (r : ω) (x : Traced ω ε α) :
    (if c then emit r >>= fun _ => x else x).result = x.result := by
  split
  · rw [result_bind]; rfl
  · rfl

/-- A failure under a condition is no result. -/
theorem result_fail_if_eq_ok_iff {c : Prop} [Decidable c] {e : ε} {x : Traced ω ε α} {a : α} :
    (if c then (fail e : Traced ω ε PUnit) >>= fun _ => x else x).result = .ok a ↔ ¬ c ∧ x.result = .ok a := by
  split
  · rename_i hc
    rw [result_bind]
    exact ⟨fun h => (by cases h), fun h => absurd hc h.1⟩
  · rename_i hc
    exact ⟨fun h => ⟨hc, h⟩, fun h => h.2⟩

theorem result_mapList (step : α → Traced ω ε β) (xs : List α) :
    (mapList step xs).result = xs.mapM fun x => (step x).result := by
  induction xs with
  | nil => rfl
  | cons x xs ih =>
    rw [mapList, List.mapM_cons, result_bind]
    congr; funext y
    rw [result_bind, ih]
    rfl

theorem result_mapList_eq_ok_iff {step : α → Traced ω ε β} {xs : List α} {ys : List β} :
    (mapList step xs).result = .ok ys ↔ List.Forall₂ (fun x y => (step x).result = .ok y) xs ys := by
  rw [result_mapList, Except.mapM_eq_ok_iff]

/-- A step for each report of a computation leads to a value iff the steps do and the computation does. -/
theorem result_foldReports_eq_ok_iff {ρ σ : Type} {step : σ → ρ → Traced ω ε σ} {s : σ} {x : Traced ρ ε α}
    {p : σ × α} :
    (foldReports step s x).result = .ok p ↔ (foldList step s x.reports).result = .ok p.1 ∧ x.result = .ok p.2 := by
  rw [foldReports, result_bind, Except.bind_eq_ok]
  constructor
  · rintro ⟨s', hs, h⟩
    rw [result_bind] at h
    obtain ⟨a, ha, h⟩ := Except.bind_eq_ok.1 h
    cases h
    exact ⟨hs, ha⟩
  · rintro ⟨hs, ha⟩
    refine ⟨p.1, hs, ?_⟩
    rw [result_bind]
    exact Except.bind_eq_ok.2 ⟨p.2, ha, rfl⟩

end Traced

end Octet
