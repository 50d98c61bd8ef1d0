/-!
Computations that report as they go: a `Traced ω ε α` has made reports of type `ω`, in order, and ended in a
value or an error. What was reported before an error stays reported.

* `Traced.emit` makes one report, `Traced.fail` ends in an error;
* `Traced.foldList` runs a step for every element of a list, and stops at the first error;
* `Traced.foldReports` runs a step for every report of another computation, and then ends as that one did;
  `foldReports_bind` and `foldReports_foldList` say that the steps may as well be run while it goes on;
* `result_bind` and `reports_bind`: the result of a composition does not depend on the reports, and the reports of
  the second part follow those of the first one if that ends in a value.
-/

namespace Octet

/-- Reports, in order, and the end that the computation came to. -/
structure Traced (ω ε α : Type) where
  /-- The reports, first one first. -/
  reports : List ω
  /-- The value, or the error that ended the computation. -/
  result : Except ε α

namespace Traced

variable {ω ε α β σ : Type}

/-- Ends in a value, with no report. -/
def pure (a : α) : Traced ω ε α := ⟨[], .ok a⟩

/-- Goes on from the value, if there is one. -/
def bind (x : Traced ω ε α) (f : α → Traced ω ε β) : Traced ω ε β :=
  match x.result with
  | .error e => ⟨x.reports, .error e⟩
  | .ok a =>
    let y := f a
    ⟨x.reports ++ y.reports, y.result⟩

instance : Monad (Traced ω ε) where
  pure := Traced.pure
  bind := Traced.bind

instance : LawfulMonad (Traced ω ε) := by
  refine LawfulMonad.mk' _ ?_ ?_ ?_
  · rintro α ⟨reports, _ | _⟩ <;> simp [Functor.map, Traced.bind, Traced.pure]
  · intro α β a f
    simp [Bind.bind, Pure.pure, Traced.bind, Traced.pure]
  · rintro α β γ ⟨reports, _ | a⟩ f g
    · rfl
    · cases h : (f a).result <;> simp [Bind.bind, Traced.bind, h]

/-- Makes one report. -/
def emit (report : ω) : Traced ω ε Unit := ⟨[report], .ok ()⟩

/-- Makes several reports. -/
def emitAll (reports : List ω) : Traced ω ε Unit := ⟨reports, .ok ()⟩

/-- Ends in an error. -/
def fail (error : ε) : Traced ω ε α := ⟨[], .error error⟩

/-- Ends as the given result says, with no report. -/
def lift (result : Except ε α) : Traced ω ε α := ⟨[], result⟩

/-- Runs the step for every element in order, handing a state on. -/
def foldList (step : σ → α → Traced ω ε σ) : σ → List α → Traced ω ε σ
  | s, [] => pure s
  | s, x :: xs => do let s ← step s x; foldList step s xs

/-- Runs the step for every element in order and collects the values. -/
def mapList (step : α → Traced ω ε β) : List α → Traced ω ε (List β)
  | [] => pure []
  | x :: xs => do
    let y ← step x
    let ys ← mapList step xs
    return y :: ys

/-- Runs the step for every report of a computation in order, and then ends as the computation did. -/
def foldReports {ρ : Type} (step : σ → ρ → Traced ω ε σ) (s : σ) (x : Traced ρ ε α) : Traced ω ε (σ × α) := do
  let s ← foldList step s x.reports
  let a ← lift x.result
  return (s, a)

/-! ## The result by itself -/

@[simp] theorem result_pure (a : α) : (Pure.pure a : Traced ω ε α).result = .ok a := rfl

@[simp] theorem result_emit (r : ω) : (emit r : Traced ω ε Unit).result = .ok () := rfl

@[simp] theorem result_emitAll (rs : List ω) : (emitAll rs : Traced ω ε Unit).result = .ok () := rfl

@[simp] theorem result_fail (e : ε) : (fail e : Traced ω ε α).result = .error e := rfl

@[simp] theorem result_lift (x : Except ε α) : (lift x : Traced ω ε α).result = x := rfl

@[simp] theorem result_bind (x : Traced ω ε α) (f : α → Traced ω ε β) :
    (x >>= f).result = x.result >>= fun a => (f a).result := by
  show (bind x f).result = _
  unfold bind
  cases h : x.result <;> rfl

/-! ## The reports by themselves -/

@[simp] theorem reports_pure (a : α) : (Pure.pure a : Traced ω ε α).reports = [] := rfl

@[simp] theorem reports_emit (r : ω) : (emit r : Traced ω ε Unit).reports = [r] := rfl

@[simp] theorem reports_emitAll (rs : List ω) : (emitAll rs : Traced ω ε Unit).reports = rs := rfl

@[simp] theorem reports_fail (e : ε) : (fail e : Traced ω ε α).reports = [] := rfl

@[simp] theorem reports_lift (x : Except ε α) : (lift x : Traced ω ε α).reports = [] := rfl

theorem reports_bind (x : Traced ω ε α) (f : α → Traced ω ε β) :
    (x >>= f).reports = x.reports ++ match x.result with
      | .ok a => (f a).reports
      | .error _ => [] := by
  show (bind x f).reports = _
  unfold bind
  cases h : x.result <;> simp

/-! ## Folding over reports -/

theorem foldList_append (step : σ → α → Traced ω ε σ) (s : σ) (xs ys : List α) :
    foldList step s (xs ++ ys) = foldList step s xs >>= fun s => foldList step s ys := by
  induction xs generalizing s with
  | nil => exact (pure_bind (m := Traced ω ε) s fun s => foldList step s ys).symm
  | cons x xs ih =>
    show (step s x >>= fun s => foldList step s (xs ++ ys)) =
      (step s x >>= fun s => foldList step s xs) >>= fun s => foldList step s ys
    rw [bind_assoc]; congr; funext s; exact ih s

section
variable {ρ : Type} (step : σ → ρ → Traced ω ε σ) (s : σ)

theorem foldReports_of_ok {x : Traced ρ ε α} {a : α} (h : x.result = .ok a) :
    foldReports step s x = foldList step s x.reports >>= fun s => Pure.pure (s, a) := by
  rw [foldReports, h]; rfl

theorem foldReports_of_error {x : Traced ρ ε α} {e : ε} (h : x.result = .error e) :
    foldReports step s x = foldList step s x.reports >>= fun _ => fail e := by
  rw [foldReports, h]; rfl

/-- A value is a value. -/
@[simp] theorem foldReports_pure (a : α) :
    foldReports step s (Pure.pure a : Traced ρ ε α) = Pure.pure (s, a) := rfl

/-- An error is an error. -/
@[simp] theorem foldReports_fail (e : ε) :
    foldReports step s (fail e : Traced ρ ε α) = fail e := rfl

/-- A report is one step. -/
@[simp] theorem foldReports_emit (report : ρ) :
    foldReports step s (emit report) = step s report >>= fun s => Pure.pure (s, ()) := by
  rw [foldReports_of_ok step s (result_emit report)]
  exact congrArg (· >>= _) (bind_pure _)

/-- The steps for the first part may be run before the second part is. -/
@[simp] theorem foldReports_bind (x : Traced ρ ε α) (f : α → Traced ρ ε β) :
    foldReports step s (x >>= f) = foldReports step s x >>= fun p => foldReports step p.1 (f p.2) := by
  cases h : x.result with
  | error e =>
    have hb : (x >>= f).result = .error e := by rw [result_bind, h]; rfl
    rw [foldReports_of_error step s hb, foldReports_of_error step s h, reports_bind, h, bind_assoc]
    simp only [List.append_nil]
    rfl
  | ok a =>
    rw [foldReports_of_ok step s h, foldReports, reports_bind, result_bind, h, foldList_append, bind_assoc]
    simp only [bind_assoc, pure_bind]
    rfl

/-- The steps for the reports of one element may be run before the next element is looked at. -/
theorem foldReports_foldList (f : β → α → Traced ρ ε β) (b : β) (xs : List α) :
    foldReports step s (foldList f b xs) = foldList (fun p x => foldReports step p.1 (f p.2 x)) (s, b) xs := by
  induction xs generalizing s b with
  | nil => rfl
  | cons x xs ih =>
    show foldReports step s (f b x >>= fun b => foldList f b xs) = _
    rw [foldReports_bind]
    exact congrArg _ (funext fun p => ih p.1 p.2)

end

end Traced

end Octet
