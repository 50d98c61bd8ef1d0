import Octet.Assembler.Symbols
import Mathlib
/-!
The symbol tables as maps in which the first definition of a name stands.

* `declareProcedure_eq_ok_iff`, `addDatum_eq_ok_iff`, `defineConstant_eq_ok_iff`: a name is added iff its table does
  not have it;
* `procedure?_bindProcedure`: an address is given to one procedure and to no other.
-/

namespace Octet.Symbols

variable {symbols symbols' : Symbols} {name : String}

/-- The names in the table of procedures. -/
def procedureNames (symbols : Symbols) : List String := symbols.procedures.map (·.1)

/-- The names in the table of data. -/
def dataNames (symbols : Symbols) : List String := symbols.data.map (·.name)

/-- The names in the table of constants. -/
def constantNames (symbols : Symbols) : List String := symbols.constants.map (·.1)

theorem lookup_isSome_iff_mem {α : Type} {table : List (String × α)} :
    (table.lookup name).isSome = true ↔ name ∈ table.map (·.1) := by
  rw [List.lookup_isSome_iff, List.mem_map]
  exact exists_congr fun p => and_congr_right fun _ => beq_iff_eq.trans eq_comm

theorem procedure?_isSome_iff : (symbols.procedure? name).isSome = true ↔ name ∈ symbols.procedureNames :=
  lookup_isSome_iff_mem

theorem constant?_isSome_iff : (symbols.constant? name).isSome = true ↔ name ∈ symbols.constantNames :=
  lookup_isSome_iff_mem

theorem datum?_isSome_iff : (symbols.datum? name).isSome = true ↔ name ∈ symbols.dataNames := by
  simp [datum?, dataNames, List.find?_isSome]

theorem constant?_eq_none (h : name ∉ symbols.constantNames) : symbols.constant? name = none := by
  rwa [← Option.not_isSome_iff_eq_none, constant?_isSome_iff]

theorem procedure?_eq_none (h : name ∉ symbols.procedureNames) : symbols.procedure? name = none := by
  rwa [← Option.not_isSome_iff_eq_none, procedure?_isSome_iff]

/-- A new name is found behind the others. -/
theorem lookup_concat {α : Type} {table : List (String × α)} {value : α} (h : name ∉ table.map (·.1)) (other : String) :
    (table ++ [(name, value)]).lookup other = if other = name then some value else table.lookup other := by
  rw [List.lookup_append, List.lookup_cons]
  by_cases ho : other = name
  · subst ho
    have hnone : table.lookup other = none := by rwa [← Option.not_isSome_iff_eq_none, lookup_isSome_iff_mem]
    simp [hnone]
  · have hb : (other == name) = false := beq_false_of_ne ho
    simp [ho, hb]

/-- Where no name stands for two data, each is found by its name. -/
theorem datum?_of_getElem? {data : List Datum} {k : Nat} {datum : Datum} (hn : (data.map (·.name)).Nodup)
    (h : data[k]? = some datum) : data.find? (fun d => d.name = datum.name) = some datum := by
  induction data generalizing k with
  | nil => simp at h
  | cons d data ih =>
    rw [List.map_cons, List.nodup_cons] at hn
    cases k with
    | zero =>
      cases h
      simp
    | succ k =>
      have hmem : datum.name ∈ data.map (·.name) := List.mem_map.2 ⟨datum, List.mem_of_getElem? h, rfl⟩
      have hne : d.name ≠ datum.name := fun he => hn.1 (he ▸ hmem)
      rw [List.find?_cons_of_neg (by simpa using hne)]
      exact ih hn.2 h

/-- Where no name is defined twice, each definition is found by its name. -/
theorem lookup_of_mem {α : Type} {table : List (String × α)} {value : α} (hn : (table.map (·.1)).Nodup)
    (h : (name, value) ∈ table) : table.lookup name = some value := by
  induction table with
  | nil => cases h
  | cons p table ih =>
    rw [List.map_cons, List.nodup_cons] at hn
    cases h with
    | head => simp
    | tail _ h =>
      have hne : (name == p.1) = false := beq_false_of_ne fun he => hn.1 (he ▸ List.mem_map.2 ⟨_, h, rfl⟩)
      rw [List.lookup_cons, hne]
      exact ih hn.2 h

/-! ## References -/

section
variable {token : String} {letter : Char}

/-- A name, a dot and a letter. -/
theorem nameBefore?_eq_some_iff :
    nameBefore? token letter = some name ↔ token = name ++ String.ofList ['.', letter] := by
  unfold nameBefore?
  constructor
  · intro h
    split at h
    · rename_i c rest hlist
      split at h
      · rename_i hc
        subst hc
        obtain rfl := Option.some.inj h
        have hlist := congrArg List.reverse hlist
        rw [List.reverse_reverse] at hlist
        rw [← String.toList_inj, hlist]
        simp
      · cases h
    · cases h
  · rintro rfl
    simp

theorem nameBefore?_append_dot (name : String) (c letter : Char) :
    nameBefore? (name ++ String.ofList ['.', c]) letter = if c = letter then some name else none := by
  simp [nameBefore?]

theorem procedure?_of_lookup {address : Option UInt16} (h : symbols.lookup token = some (.procedure address)) :
    symbols.procedure? token = some address := by
  simp only [lookup, Option.orElse_eq_orElse, Option.orElse_eq_or, Option.or_eq_some_iff, Option.map_eq_some_iff,
    Option.bind_eq_some_iff] at h
  rcases h with ⟨a, ha, h⟩ | ⟨-, ⟨_, -, datum, -, h⟩ | ⟨-, ⟨_, -, datum, -, h⟩ | ⟨-, text, -, h⟩⟩⟩
  · cases h; exact ha
  · cases h
  · cases h
  · cases h

/-- A procedure hides everything else. -/
theorem lookup_of_procedure? {address : Option UInt16} (h : symbols.procedure? token = some address) :
    symbols.lookup token = some (.procedure address) := by
  simp [lookup, h]

theorem lookup_of_datum?_high {datum : Datum} (hp : symbols.procedure? token = none)
    (hn : nameBefore? token 'H' = some name) (hd : symbols.datum? name = some datum) :
    symbols.lookup token = some (.dataHigh datum) := by
  simp [lookup, hp, hn, hd]

theorem lookup_of_datum?_low {datum : Datum} (hp : symbols.procedure? token = none)
    (hh : nameBefore? token 'H' = none) (hn : nameBefore? token 'L' = some name)
    (hd : symbols.datum? name = some datum) : symbols.lookup token = some (.dataLow datum) := by
  simp [lookup, hp, hh, hn, hd]

/-- A token that names no procedure and no half of an address of data is a constant, or literal. -/
theorem lookup_of_none (hp : symbols.procedure? token = none)
    (hd : ∀ letter name, nameBefore? token letter = some name → (letter = 'H' ∨ letter = 'L') →
      symbols.datum? name = none) :
    symbols.lookup token = (symbols.constant? token).map .constant := by
  have hnone (letter : Char) (hl : letter = 'H' ∨ letter = 'L') (f : Datum → SymbolRef) :
      ((nameBefore? token letter).bind fun name => (symbols.datum? name).map f) = none := by
    cases hn : nameBefore? token letter with
    | none => rfl
    | some name => rw [Option.bind_some, hd letter name hn hl]; rfl
  simp only [lookup, hp, hnone 'H' (.inl rfl), hnone 'L' (.inr rfl)]
  rfl

end

/-! ## Adding names -/

theorem declareProcedure_eq_ok_iff :
    symbols.declareProcedure name = .ok symbols' ↔ name ∉ symbols.procedureNames ∧
      symbols' = { symbols with procedures := symbols.procedures ++ [(name, none)] } := by
  unfold declareProcedure
  rw [← procedure?_isSome_iff]
  split
  · rename_i h; simp [h]
  · rename_i h; simp [h, eq_comm]

theorem defineConstant_eq_ok_iff {text : String} :
    symbols.defineConstant name text = .ok symbols' ↔ name ∉ symbols.constantNames ∧
      symbols' = { symbols with constants := symbols.constants ++ [(name, text)] } := by
  unfold defineConstant
  rw [← constant?_isSome_iff]
  split
  · rename_i h; simp [h]
  · rename_i h; simp [h, eq_comm]

theorem addDatum_eq_ok_iff {datum : Datum} :
    symbols.addDatum datum = .ok symbols' ↔ datum.name ∉ symbols.dataNames ∧
      symbols' = { symbols with data := symbols.data ++ [datum] } := by
  unfold addDatum
  rw [← datum?_isSome_iff]
  split
  · rename_i h; simp [h]
  · rename_i h; simp [h, eq_comm]

/-! ## Addresses -/

theorem lookup_map_bind (table : List (String × Option UInt16)) (name other : String) (address : UInt16) :
    (table.map fun p => if p.1 = name then (name, some address) else p).lookup other =
      if other = name then (table.lookup other).map fun _ => some address else table.lookup other := by
  induction table with
  | nil => simp
  | cons p table ih =>
    obtain ⟨key, value⟩ := p
    rw [List.map_cons]
    by_cases hk : key = name
    · subst hk
      by_cases ho : other = key
      · subst ho; simp
      · have hb : (other == key) = false := by simp [ho]
        simp only [if_true, List.lookup_cons, hb, ih, if_neg ho]
    · by_cases ho : other = key
      · subst ho; simp [hk]
      · have hb : (other == key) = false := by simp [ho]
        simp only [if_neg hk, List.lookup_cons, hb, ih]

/-- An address is given to one procedure and to no other. -/
theorem procedure?_bindProcedure (symbols : Symbols) (name other : String) (address : UInt16) :
    (symbols.bindProcedure name address).procedure? other =
      if other = name then some (some address) else symbols.procedure? other := by
  unfold bindProcedure
  split
  · rename_i h
    show List.lookup other (symbols.procedures.map _) = _
    rw [lookup_map_bind]
    by_cases ho : other = name
    · subst ho
      obtain ⟨old, hold⟩ := Option.isSome_iff_exists.1 h
      have hold : symbols.procedures.lookup other = some old := hold
      simp [hold]
    · simp only [if_neg ho, procedure?]
  · rename_i h
    exact lookup_concat (fun hmem => h (procedure?_isSome_iff.2 hmem)) other

theorem constants_bindProcedure (symbols : Symbols) (name : String) (address : UInt16) :
    (symbols.bindProcedure name address).constants = symbols.constants := by
  unfold bindProcedure; split <;> rfl

theorem data_bindProcedure (symbols : Symbols) (name : String) (address : UInt16) :
    (symbols.bindProcedure name address).data = symbols.data := by
  unfold bindProcedure; split <;> rfl

/-- The symbols with the addresses of some procedures. -/
def bindAll (symbols : Symbols) (bindings : List (String × UInt16)) : Symbols :=
  bindings.foldl (fun symbols b => symbols.bindProcedure b.1 b.2) symbols

theorem constants_bindAll (symbols : Symbols) (bindings : List (String × UInt16)) :
    (symbols.bindAll bindings).constants = symbols.constants := by
  induction bindings generalizing symbols with
  | nil => rfl
  | cons b bindings ih => exact (ih _).trans (constants_bindProcedure ..)

theorem procedure?_bindAll_of_notMem {bindings : List (String × UInt16)} (h : name ∉ bindings.map (·.1)) :
    (symbols.bindAll bindings).procedure? name = symbols.procedure? name := by
  induction bindings generalizing symbols with
  | nil => rfl
  | cons b bindings ih =>
    rw [List.map_cons, List.mem_cons, not_or] at h
    exact (ih h.2).trans ((procedure?_bindProcedure ..).trans (if_neg h.1))

theorem procedure?_bindAll_of_mem {bindings : List (String × UInt16)} {address : UInt16}
    (hn : (bindings.map (·.1)).Nodup) (h : (name, address) ∈ bindings) :
    (symbols.bindAll bindings).procedure? name = some (some address) := by
  induction bindings generalizing symbols with
  | nil => cases h
  | cons b bindings ih =>
    rw [List.map_cons, List.nodup_cons] at hn
    cases h with
    | head => exact (procedure?_bindAll_of_notMem hn.1).trans ((procedure?_bindProcedure ..).trans (if_pos rfl))
    | tail _ h => exact ih hn.2 h

end Octet.Symbols
