import Octet.Proofs.Assembler.Collection
/-!
What statements make of themselves but for the places that they stand at.

* `unlocated`: lines, data, programs and errors without their places;
* `said`: what some statements say, without their places, and without the includes that led to them;
* `unlocatedIn_ofStream`: what becomes of a stream depends on what it says, but for places.
-/

namespace Octet

/-! ## Without places -/

/-- A line of no file. -/
def Location.nowhere : Location := ⟨"", 0⟩

/-- The error without its place. -/
def AsmError.unlocated : AsmError → AsmError
  | inLine fault _ => inLine fault .nowhere
  | error => error

/-- The line without its place. -/
def Line.unlocated (line : Line) : Line := { line with loc := .nowhere }

/-- The datum without its place. -/
def Datum.unlocated (datum : Datum) : Datum := { datum with loc := .nowhere }

/-- The symbols without their places. -/
def Symbols.unlocated (symbols : Symbols) : Symbols := { symbols with data := symbols.data.map (·.unlocated) }

/-- How a computation ends, but for places. -/
def unlocatedIn {α β : Type} (erase : α → β) (result : Except AsmError α) : Except AsmError β :=
  (result.map erase).mapError AsmError.unlocated

section
variable {α α' β : Type} {erase : α → α'} {erase' : β → β}

@[simp] theorem unlocatedIn_ok (a : α) : unlocatedIn erase (.ok a) = .ok (erase a) := rfl

@[simp] theorem unlocatedIn_error (e : AsmError) : unlocatedIn erase (.error e) = .error e.unlocated := rfl

/-- Two computations in step end alike if they go on alike. -/
theorem unlocatedIn_bind {x y : Except AsmError α} {f g : α → Except AsmError β}
    (h : unlocatedIn erase x = unlocatedIn erase y)
    (hf : ∀ a b, x = .ok a → y = .ok b → erase a = erase b → unlocatedIn erase' (f a) = unlocatedIn erase' (g b)) :
    unlocatedIn erase' (x >>= f) = unlocatedIn erase' (y >>= g) := by
  cases x with
  | error e =>
    cases y with
    | error e' => exact congrArg Except.error (Except.error.inj h)
    | ok b => cases h
  | ok a =>
    cases y with
    | error e' => cases h
    | ok b => exact hf a b rfl rfl (Except.ok.inj h)

end

namespace Program

/-- The program without the places of its lines and data. -/
def unlocated (program : Program) : Program :=
  { program with lines := program.lines.map (·.unlocated), symbols := program.symbols.unlocated }

/-- The collection without its places. -/
def Collection.unlocated (c : Collection) : Collection :=
  { c with
    symbols := c.symbols.unlocated
    reversed := c.reversed.map (·.unlocated)
    waiting := c.waiting.map fun p => (p.1, .nowhere) }

end Program

/-! ## What is said -/

namespace LocatedStatement

/-- Whether the statement is an include. -/
def isSplice (s : LocatedStatement) : Bool :=
  match s.statement with
  | .splice _ => true
  | _ => false

end LocatedStatement

/-- What some statements say, includes apart: these have said what they say where the file follows. -/
def said (statements : List LocatedStatement) : List Statement :=
  (statements.filter (!·.isSplice)).map (·.statement)

@[simp] theorem said_nil : said [] = [] := rfl

@[simp] theorem said_append (xs ys : List LocatedStatement) : said (xs ++ ys) = said xs ++ said ys := by
  simp [said]

theorem said_cons_splice (loc : Location) (path : String) (xs : List LocatedStatement) :
    said (⟨loc, .splice path⟩ :: xs) = said xs := rfl

/-- What comes first in what is said is said by what comes first. -/
theorem exists_append_of_said {xs ys : List LocatedStatement} (h : said xs <+: said ys) :
    ∃ first rest, ys = first ++ rest ∧ said xs = said first := by
  obtain ⟨more, hmore⟩ := h
  obtain ⟨_, _, hfilter, hfirst, -⟩ := List.map_eq_append_iff.1 hmore.symm
  obtain ⟨first, rest, hys, rfl, -⟩ := List.filter_eq_append_iff.1 hfilter
  exact ⟨first, rest, hys, hfirst.symm⟩

/-! ## Collecting -/

namespace Symbols

variable (symbols : Symbols)

theorem find?_map_unlocated (data : List Datum) (name : String) :
    (data.map (·.unlocated)).find? (fun d => d.name = name) =
      (data.find? fun d => d.name = name).map (·.unlocated) := by
  rw [List.find?_map]
  rfl

theorem addDatum_unlocated (datum : Datum) :
    symbols.unlocated.addDatum datum.unlocated = (symbols.addDatum datum).map (·.unlocated) := by
  have hsome : (symbols.unlocated.datum? datum.name).isSome = (symbols.datum? datum.name).isSome := by
    rw [datum?, datum?, unlocated, find?_map_unlocated, Option.isSome_map]
  unfold addDatum
  rw [show datum.unlocated.name = datum.name from rfl, hsome]
  split
  · rfl
  · simp [Except.map, unlocated]

theorem declareProcedure_unlocated (name : String) :
    symbols.unlocated.declareProcedure name = (symbols.declareProcedure name).map (·.unlocated) := by
  unfold declareProcedure
  rw [show symbols.unlocated.procedure? name = symbols.procedure? name from rfl]
  split <;> rfl

theorem defineConstant_unlocated (name text : String) :
    symbols.unlocated.defineConstant name text = (symbols.defineConstant name text).map (·.unlocated) := by
  unfold defineConstant
  rw [show symbols.unlocated.constant? name = symbols.constant? name from rfl]
  split <;> rfl

end Symbols

namespace Program

/-- The place of a fault shows in places only. -/
theorem unlocatedIn_faultIn {x x' : Except Fault Symbols} (loc loc' : Location)
    (h : x.map (·.unlocated) = x'.map (·.unlocated)) :
    unlocatedIn Symbols.unlocated (faultIn loc x) = unlocatedIn Symbols.unlocated (faultIn loc' x') := by
  cases x with
  | error fault =>
    cases x' with
    | error fault' =>
      rw [Except.error.inj h]
      rfl
    | ok symbols' => cases h
  | ok symbols =>
    cases x' with
    | error fault' => cases h
    | ok symbols' => exact congrArg Except.ok (Except.ok.inj h)

/-- **One statement**: the places before it and its own show in places only. -/
theorem unlocatedIn_collect {c c' : Collection} {s s' : LocatedStatement} (hc : c.unlocated = c'.unlocated)
    (hs : s.statement = s'.statement) :
    unlocatedIn Collection.unlocated (collect c s).result =
      unlocatedIn Collection.unlocated (collect c' s').result := by
  obtain ⟨loc, statement⟩ := s
  obtain ⟨loc', statement'⟩ := s'
  obtain rfl : statement = statement' := hs
  obtain ⟨origin, symbols, reversed, waiting⟩ := c
  obtain ⟨origin', symbols', reversed', waiting'⟩ := c'
  simp only [Collection.unlocated, Collection.mk.injEq] at hc
  obtain ⟨rfl, hsym, hrev, hwait⟩ := hc
  have hnames : waiting.map (·.1) = waiting'.map (·.1) := by
    simpa [Function.comp_def] using congrArg (List.map (·.1)) hwait
  have hdatum (datum datum' : Datum) (hd : datum.unlocated = datum'.unlocated) :
      (symbols.addDatum datum).map (·.unlocated) = (symbols'.addDatum datum').map (·.unlocated) := by
    rw [← Symbols.addDatum_unlocated, ← Symbols.addDatum_unlocated, hsym, hd]
  cases statement with
  | label name =>
    simp only [collect, Traced.result_bind, Traced.result_lift, Traced.result_emit, Except.ok_bind, Traced.result_pure]
    refine unlocatedIn_bind (unlocatedIn_faultIn loc loc' ?_) fun a b _ _ hab => ?_
    · rw [← Symbols.declareProcedure_unlocated, ← Symbols.declareProcedure_unlocated, hsym]
    · simp [Collection.unlocated, hab, hrev, hwait]
  | instruction tokens =>
    refine congrArg Except.ok ?_
    simp only [Collection.unlocated, List.map_cons, List.map_nil, hsym, hrev, hnames]
    rfl
  | data | reserve =>
    simp only [collect, Traced.result_bind, Traced.result_lift, Traced.result_emit, Except.ok_bind, Traced.result_pure]
    refine unlocatedIn_bind (unlocatedIn_faultIn loc loc' (hdatum _ _ rfl)) fun a b _ _ hab => ?_
    simp [Collection.unlocated, hab, hrev, hwait]
  | constant name text =>
    simp only [collect, Traced.result_bind, Traced.result_lift, Traced.result_emit, Except.ok_bind, Traced.result_pure]
    refine unlocatedIn_bind (unlocatedIn_faultIn loc loc' ?_) fun a b _ _ hab => ?_
    · rw [← Symbols.defineConstant_unlocated, ← Symbols.defineConstant_unlocated, hsym]
    · simp [Collection.unlocated, hab, hrev, hwait]
  | origin | splice =>
    refine congrArg Except.ok ?_
    simp only [Collection.unlocated, hsym, hrev, hwait]

/-- An include changes nothing. -/
theorem result_collect_splice (c : Collection) {s : LocatedStatement} (h : s.isSplice = true) :
    (collect c s).result = .ok c := by
  obtain ⟨loc, statement⟩ := s
  cases statement with
  | splice path => rfl
  | _ => cases h

/-- Includes may be left out. -/
theorem result_foldList_collect (c : Collection) (statements : List LocatedStatement) :
    (Traced.foldList collect c statements).result =
      (Traced.foldList collect c (statements.filter (!·.isSplice))).result := by
  induction statements generalizing c with
  | nil => rfl
  | cons s rest ih =>
    rw [Traced.foldList, Traced.result_bind]
    cases hs : s.isSplice with
    | true =>
      rw [result_collect_splice c hs, Except.ok_bind, List.filter_cons_of_neg (by simp [hs])]
      exact ih c
    | false =>
      rw [List.filter_cons_of_pos (by simp [hs]), Traced.foldList, Traced.result_bind]
      exact congrArg _ (funext ih)

/-- **Some statements**: what they leave behind depends on what they say, but for places. -/
theorem unlocatedIn_foldList {c c' : Collection} {xs ys : List LocatedStatement} (hc : c.unlocated = c'.unlocated)
    (h : said xs = said ys) :
    unlocatedIn Collection.unlocated (Traced.foldList collect c xs).result =
      unlocatedIn Collection.unlocated (Traced.foldList collect c' ys).result := by
  rw [result_foldList_collect, result_foldList_collect c']
  unfold said at h
  generalize xs.filter (!·.isSplice) = xs at h ⊢
  generalize ys.filter (!·.isSplice) = ys at h ⊢
  induction xs generalizing c c' ys with
  | nil =>
    obtain rfl := List.map_eq_nil_iff.1 h.symm
    exact congrArg Except.ok hc
  | cons x xs ih =>
    obtain ⟨y, ys, rfl, hxy, hrest⟩ := List.map_eq_cons_iff.1 h.symm
    rw [Traced.foldList, Traced.foldList, Traced.result_bind, Traced.result_bind]
    exact unlocatedIn_bind (unlocatedIn_collect hc hxy.symm) fun a b _ _ hab => ih hab _ hrest.symm

theorem unlocatedIn_finish {c c' : Collection} (hc : c.unlocated = c'.unlocated) :
    unlocatedIn unlocated (finish c) = unlocatedIn unlocated (finish c') := by
  obtain ⟨origin, symbols, reversed, waiting⟩ := c
  obtain ⟨origin', symbols', reversed', waiting'⟩ := c'
  simp only [Collection.unlocated, Collection.mk.injEq] at hc
  obtain ⟨rfl, hsym, hrev, hwait⟩ := hc
  have hlast := congrArg List.getLast? hwait
  rw [List.getLast?_map, List.getLast?_map] at hlast
  unfold finish
  cases hw : waiting.getLast? with
  | none =>
    have hw' : waiting'.getLast? = none := by simpa [hw] using hlast.symm
    simp [hw', unlocated, hsym, hrev]
  | some p =>
    rw [hw] at hlast
    obtain ⟨p', hw', hp⟩ := Option.map_eq_some_iff.1 hlast.symm
    simp only [hw', unlocatedIn_error, AsmError.unlocated, (Prod.mk.inj hp).1]

/-- **What becomes of a stream** depends on what it says, but for places. -/
theorem unlocatedIn_ofStream (origin : UInt16) {stream stream' : SourceTree.Stream}
    (hsaid : said stream.reports = said stream'.reports)
    (hend : unlocatedIn id stream.result = unlocatedIn id stream'.result) :
    unlocatedIn unlocated (ofStream origin stream).result = unlocatedIn unlocated (ofStream origin stream').result := by
  rw [result_ofStream, result_ofStream]
  refine unlocatedIn_bind (unlocatedIn_foldList rfl hsaid) fun c c' _ _ hc => ?_
  exact unlocatedIn_bind hend fun _ _ _ _ _ => unlocatedIn_finish hc

end Program

end Octet
