import Octet.Proofs.Assembler.Tables
/-!
The tables after any number of changes.

* `TableChange`, `Symbols.changed`: the changes, each of which is made or refused;
* `Symbols.Clashes`, `Symbols.Step`: which changes are refused, and what the others do to each table;
* `firstText`, `lastAddress`, `dataFrom`: what a history of changes says of the tables;
* `Symbols.Resolves`: what a token stands for, by the order of the tables;
* `IndexedData`: data in an array, with the place of each in an index by name; `Represents` says that both are in step;
* `tables_are_first_wins`: what all tables are like that changes can lead to.
-/

namespace Octet

/-! ## Changes -/

/-- A change of the tables. -/
inductive TableChange where
  | constant (name text : String)
  | procedure (name : String)
  | bind (name : String) (address : UInt16)
  | datum (datum : Datum)
  /-- New addresses for the data, in place. -/
  | place (address : Datum → UInt16)

namespace TableChange

/-- The text that a change defines for a name. -/
def text? (name : String) : TableChange → Option String
  | constant other text => if name = other then some text else none
  | _ => none

/-- The procedure that a change declares or binds. -/
def procedureName? : TableChange → Option String
  | procedure name => some name
  | bind name _ => some name
  | _ => none

/-- The address to which a change binds a name. -/
def address? (name : String) : TableChange → Option UInt16
  | bind other address => if name = other then some address else none
  | _ => none

end TableChange

namespace Symbols

/-- Makes a change. -/
def change (symbols : Symbols) : TableChange → Except Fault Symbols
  | .constant name text => symbols.defineConstant name text
  | .procedure name => symbols.declareProcedure name
  | .bind name address => .ok (symbols.bindProcedure name address)
  | .datum datum => symbols.addDatum datum
  | .place address => .ok (symbols.placeData address)

/-- The tables after a change. One that is refused leaves them as they are. -/
def changed (symbols : Symbols) (c : TableChange) : Symbols :=
  match symbols.change c with
  | .ok after => after
  | .error _ => symbols

/-- The tables after some changes. -/
def changedAll (symbols : Symbols) (history : List TableChange) : Symbols := history.foldl changed symbols

/-- A change gives a name a second meaning in one table. -/
inductive Clashes (symbols : Symbols) : TableChange → String → Prop
  | constant {name text : String} : name ∈ symbols.constantNames → Clashes symbols (.constant name text) name
  | procedure {name : String} : name ∈ symbols.procedureNames → Clashes symbols (.procedure name) name
  | datum {datum : Datum} : datum.name ∈ symbols.dataNames → Clashes symbols (.datum datum) datum.name

/-- What a change does that is made: it acts on one table, and leaves the others as they are. -/
inductive Step (symbols : Symbols) : TableChange → Symbols → Prop
  | constant {name text : String} {after : Symbols} : name ∉ symbols.constantNames →
      (∀ other, after.constant? other = if other = name then some text else symbols.constant? other) →
      after.procedures = symbols.procedures → after.data = symbols.data → Step symbols (.constant name text) after
  | procedure {name : String} {after : Symbols} : name ∉ symbols.procedureNames →
      (∀ other, after.procedure? other = if other = name then some none else symbols.procedure? other) →
      after.constants = symbols.constants → after.data = symbols.data → Step symbols (.procedure name) after
  | bind {name : String} {address : UInt16} {after : Symbols} :
      (∀ other, after.procedure? other = if other = name then some (some address) else symbols.procedure? other) →
      after.constants = symbols.constants → after.data = symbols.data → Step symbols (.bind name address) after
  | datum {datum : Datum} {after : Symbols} : datum.name ∉ symbols.dataNames → after.data = symbols.data ++ [datum] →
      after.constants = symbols.constants → after.procedures = symbols.procedures → Step symbols (.datum datum) after
  | place {address : Datum → UInt16} {after : Symbols} :
      after.data = (symbols.data.map fun d => { d with address := address d }) →
      after.constants = symbols.constants → after.procedures = symbols.procedures → Step symbols (.place address) after

variable {symbols after : Symbols} {c : TableChange} {name : String}

/-- **A name that is there already is refused.** -/
theorem Clashes.change_eq (h : symbols.Clashes c name) : symbols.change c = .error (.duplicateSymbol name) := by
  cases h with
  | constant h => exact if_pos (constant?_isSome_iff.2 h)
  | procedure h => exact if_pos (procedure?_isSome_iff.2 h)
  | datum h => exact if_pos (datum?_isSome_iff.2 h)

theorem Clashes.changed_eq (h : symbols.Clashes c name) : symbols.changed c = symbols := by
  rw [changed, h.change_eq]

theorem changed_of_ok (h : symbols.change c = .ok after) : symbols.changed c = after := by
  rw [changed, h]

/-- A change that is made acts on one table. -/
theorem step_of_change (h : symbols.change c = .ok after) : symbols.Step c after := by
  cases c with
  | constant name text =>
    obtain ⟨hnew, rfl⟩ := defineConstant_eq_ok_iff.1 h
    exact .constant hnew (lookup_concat hnew) rfl rfl
  | procedure name =>
    obtain ⟨hnew, rfl⟩ := declareProcedure_eq_ok_iff.1 h
    exact .procedure hnew (lookup_concat hnew) rfl rfl
  | bind name address =>
    obtain rfl := Except.ok.inj h
    exact .bind (fun other => procedure?_bindProcedure ..) (constants_bindProcedure ..) (data_bindProcedure ..)
  | datum datum =>
    obtain ⟨hnew, rfl⟩ := addDatum_eq_ok_iff.1 h
    exact .datum hnew rfl rfl rfl
  | place address =>
    obtain rfl := Except.ok.inj h
    exact .place rfl rfl rfl

/-- **Every other change is made.** -/
theorem exists_change (h : ∀ name, ¬ symbols.Clashes c name) : ∃ after, symbols.change c = .ok after := by
  cases c with
  | constant name text => exact ⟨_, defineConstant_eq_ok_iff.2 ⟨fun hmem => h _ (.constant hmem), rfl⟩⟩
  | procedure name => exact ⟨_, declareProcedure_eq_ok_iff.2 ⟨fun hmem => h _ (.procedure hmem), rfl⟩⟩
  | bind name address => exact ⟨_, rfl⟩
  | datum datum => exact ⟨_, addDatum_eq_ok_iff.2 ⟨fun hmem => h _ (.datum hmem), rfl⟩⟩
  | place address => exact ⟨_, rfl⟩

/-- A change is refused, or it is made. -/
theorem clashes_or_step (symbols : Symbols) (c : TableChange) :
    (∃ name, symbols.Clashes c name ∧ symbols.changed c = symbols) ∨ symbols.Step c (symbols.changed c) := by
  by_cases h : ∃ name, symbols.Clashes c name
  · obtain ⟨name, h⟩ := h
    exact .inl ⟨name, h, h.changed_eq⟩
  · obtain ⟨after, hafter⟩ := exists_change (not_exists.1 h)
    rw [changed_of_ok hafter]
    exact .inr (step_of_change hafter)

/-! ## One change -/

/-- The first text of a constant stands. -/
theorem constant?_changed (symbols : Symbols) (c : TableChange) (name : String) :
    (symbols.changed c).constant? name = (symbols.constant? name).or (c.text? name) := by
  rcases symbols.clashes_or_step c with ⟨other, hclash, h⟩ | hstep
  · rw [h]
    cases hclash with
    | constant hmem =>
      by_cases hn : name = other
      · obtain ⟨text, htext⟩ := Option.isSome_iff_exists.1 (constant?_isSome_iff.2 hmem)
        rw [hn, htext]
        rfl
      · simp [TableChange.text?, hn]
    | procedure | datum => exact Option.or_none.symm
  · generalize symbols.changed c = after at hstep
    cases hstep with
    | @constant other text _ hnew hlookup =>
      rw [hlookup]
      by_cases hn : name = other
      · simp [TableChange.text?, hn, constant?_eq_none hnew]
      · simp [TableChange.text?, hn]
    | procedure _ _ hsame | datum _ _ hsame | bind _ hsame | place _ hsame =>
      rw [constant?, hsame]
      exact Option.or_none.symm

/-- What is declared or bound is a procedure. -/
theorem isSome_procedure?_changed (symbols : Symbols) (c : TableChange) (name : String) :
    ((symbols.changed c).procedure? name).isSome = true ↔
      (symbols.procedure? name).isSome = true ∨ c.procedureName? = some name := by
  rcases symbols.clashes_or_step c with ⟨other, hclash, h⟩ | hstep
  · rw [h]
    cases hclash with
    | procedure hmem =>
      refine ⟨.inl, fun hor => hor.elim id fun hname => ?_⟩
      rw [← Option.some.inj hname]
      exact procedure?_isSome_iff.2 hmem
    | constant | datum => simp [TableChange.procedureName?]
  · generalize symbols.changed c = after at hstep
    cases hstep with
    | @procedure other _ _ hlookup | @bind other _ _ hlookup =>
      rw [hlookup]
      by_cases hn : name = other
      · simp [TableChange.procedureName?, hn]
      · simp [TableChange.procedureName?, hn, Ne.symm hn]
    | constant _ _ hsame | datum _ _ _ hsame | place _ _ hsame =>
      rw [procedure?, hsame]
      simp [TableChange.procedureName?, procedure?]

/-- The last address of a procedure stands. -/
theorem join_procedure?_changed (symbols : Symbols) (c : TableChange) (name : String) :
    ((symbols.changed c).procedure? name).join = (c.address? name).or (symbols.procedure? name).join := by
  rcases symbols.clashes_or_step c with ⟨other, hclash, h⟩ | hstep
  · rw [h]
    cases hclash <;> rfl
  · generalize symbols.changed c = after at hstep
    cases hstep with
    | @procedure other _ hnew hlookup =>
      rw [hlookup]
      by_cases hn : name = other
      · simp [TableChange.address?, hn, procedure?_eq_none hnew]
      · simp [TableChange.address?, hn]
    | @bind other address _ hlookup =>
      rw [hlookup]
      by_cases hn : name = other
      · simp [TableChange.address?, hn]
      · simp [TableChange.address?, hn]
    | constant _ _ hsame | datum _ _ _ hsame | place _ _ hsame =>
      rw [procedure?, hsame]
      rfl

/-- No change gives data a name that others have. -/
theorem nodup_changed (h : symbols.dataNames.Nodup) (c : TableChange) : (symbols.changed c).dataNames.Nodup := by
  rcases symbols.clashes_or_step c with ⟨other, -, hsame⟩ | hstep
  · rwa [hsame]
  · generalize symbols.changed c = after at hstep
    cases hstep with
    | datum hnew hdata =>
      rw [dataNames, hdata, List.map_append, List.map_cons, List.map_nil, ← List.concat_eq_append]
      exact List.Nodup.concat hnew h
    | place hdata =>
      rw [dataNames, hdata, List.map_map]
      exact h
    | constant _ _ _ hsame | procedure _ _ _ hsame | bind _ _ hsame => rwa [dataNames, hsame]

end Symbols

/-! ## Histories -/

/-- The text that a history of changes gives a constant: that of its first definition. -/
def firstText (history : List TableChange) (name : String) : Option String := history.findSome? (·.text? name)

/-- The address that a history gives a procedure: that of its last binding. -/
def lastAddress (history : List TableChange) (name : String) : Option UInt16 :=
  history.reverse.findSome? (·.address? name)

/-- A datum after a history of changes: only its address can be another one. -/
def Datum.placedBy (datum : Datum) : List TableChange → Datum
  | [] => datum
  | .place address :: history => { datum with address := address datum }.placedBy history
  | _ :: history => datum.placedBy history

/-- The data that a history adds, in order, where some names are taken: the first ones of their names, each with the
address that the rest of the history gives it. -/
def dataFrom (taken : List String) : List TableChange → List Datum
  | [] => []
  | .datum datum :: history =>
    if datum.name ∈ taken then dataFrom taken history
    else datum.placedBy history :: dataFrom (taken ++ [datum.name]) history
  | _ :: history => dataFrom taken history

namespace Symbols

variable {symbols : Symbols}

/-- Tables that say what a history says. -/
structure Follows (symbols : Symbols) (history : List TableChange) : Prop where
  constant? : ∀ name, symbols.constant? name = firstText history name
  procedure : ∀ name, (symbols.procedure? name).isSome = true ↔ ∃ c ∈ history, c.procedureName? = some name
  address : ∀ name, (symbols.procedure? name).join = lastAddress history name
  data : symbols.data = dataFrom [] history
  nodup : symbols.dataNames.Nodup

theorem constant?_changedAll (symbols : Symbols) (history : List TableChange) (name : String) :
    (symbols.changedAll history).constant? name = (symbols.constant? name).or (firstText history name) := by
  induction history generalizing symbols with
  | nil => exact Option.or_none.symm
  | cons c history ih =>
    have hfirst : firstText (c :: history) name = (c.text? name).or (firstText history name) := by
      rw [firstText, List.findSome?_cons]
      cases c.text? name <;> rfl
    rw [hfirst, ← Option.or_assoc, ← constant?_changed]
    exact ih _

theorem isSome_procedure?_changedAll (symbols : Symbols) (history : List TableChange) (name : String) :
    ((symbols.changedAll history).procedure? name).isSome = true ↔
      (symbols.procedure? name).isSome = true ∨ ∃ c ∈ history, c.procedureName? = some name := by
  induction history generalizing symbols with
  | nil => simp [changedAll]
  | cons c history ih =>
    rw [List.exists_mem_cons_iff, ← or_assoc, ← isSome_procedure?_changed]
    exact ih _

theorem join_procedure?_changedAll (symbols : Symbols) (history : List TableChange) (name : String) :
    ((symbols.changedAll history).procedure? name).join =
      (lastAddress history name).or (symbols.procedure? name).join := by
  induction history generalizing symbols with
  | nil => rfl
  | cons c history ih =>
    have hlast : lastAddress (c :: history) name = (lastAddress history name).or (c.address? name) := by
      rw [lastAddress, List.reverse_cons, List.findSome?_append, List.findSome?_singleton]
      rfl
    rw [hlast, Option.or_assoc, ← join_procedure?_changed]
    exact ih _

theorem nodup_changedAll (h : symbols.dataNames.Nodup) (history : List TableChange) :
    (symbols.changedAll history).dataNames.Nodup := by
  induction history generalizing symbols with
  | nil => exact h
  | cons c history ih => exact ih (nodup_changed h c)

theorem data_changedAll (symbols : Symbols) (history : List TableChange) :
    (symbols.changedAll history).data =
      symbols.data.map (·.placedBy history) ++ dataFrom symbols.dataNames history := by
  induction history generalizing symbols with
  | nil => exact ((List.append_nil _).trans (List.map_id _)).symm
  | cons c history ih =>
    refine (ih _).trans ?_
    rcases symbols.clashes_or_step c with ⟨other, hclash, h⟩ | hstep
    · rw [h]
      cases hclash with
      | datum hmem => rw [dataFrom, if_pos hmem]; rfl
      | constant | procedure => rfl
    · generalize symbols.changed c = after at hstep
      cases hstep with
      | @datum datum _ hnew hdata =>
        rw [dataFrom, if_neg hnew, dataNames, hdata, List.map_append, List.map_append, List.append_assoc]
        rfl
      | place hdata =>
        rw [dataNames, hdata, List.map_map, List.map_map]
        rfl
      | constant _ _ _ hsame | procedure _ _ _ hsame | bind _ _ hsame =>
        rw [dataNames, hsame]
        rfl

/-- **Tables follow their history.** -/
theorem follows_changedAll (history : List TableChange) : (changedAll {} history).Follows history where
  constant? := constant?_changedAll {} history
  procedure := fun name => (isSome_procedure?_changedAll {} history name).trans (by simp [procedure?])
  address := fun name => (join_procedure?_changedAll {} history name).trans Option.or_none
  data := data_changedAll {} history
  nodup := by
    have hnone : ({} : Symbols).dataNames.Nodup := List.nodup_nil
    exact nodup_changedAll hnone history

/-! ## Looking up -/

/-- What a token stands for, by the order of the tables. -/
inductive Resolves (symbols : Symbols) (token : String) : Option SymbolRef → Prop
  | procedure {address : Option UInt16} : symbols.procedure? token = some address →
      Resolves symbols token (some (.procedure address))
  | high {datum : Datum} : symbols.procedure? token = none → datum ∈ symbols.data → token = datum.name ++ ".H" →
      Resolves symbols token (some (.dataHigh datum))
  | low {datum : Datum} : symbols.procedure? token = none → datum ∈ symbols.data → token = datum.name ++ ".L" →
      Resolves symbols token (some (.dataLow datum))
  | other : symbols.procedure? token = none →
      (∀ datum ∈ symbols.data, token ≠ datum.name ++ ".H" ∧ token ≠ datum.name ++ ".L") →
      Resolves symbols token ((symbols.constant? token).map .constant)

/-- **A datum is found by its name**, and nothing else is. -/
theorem datum?_eq_some_iff (h : symbols.dataNames.Nodup) {name : String} {datum : Datum} :
    symbols.datum? name = some datum ↔ datum ∈ symbols.data ∧ datum.name = name := by
  constructor
  · intro hd
    exact ⟨List.mem_of_find?_eq_some hd, by simpa using List.find?_some hd⟩
  · rintro ⟨hmem, rfl⟩
    obtain ⟨k, hk⟩ := List.getElem?_of_mem hmem
    exact datum?_of_getElem? h hk

/-- A token stands for something, or for nothing. -/
theorem exists_resolves (symbols : Symbols) (token : String) : ∃ r, symbols.Resolves token r := by
  cases hp : symbols.procedure? token with
  | some address => exact ⟨_, .procedure hp⟩
  | none =>
    by_cases hhigh : ∃ datum ∈ symbols.data, token = datum.name ++ ".H"
    · obtain ⟨datum, hmem, htoken⟩ := hhigh
      exact ⟨_, .high hp hmem htoken⟩
    by_cases hlow : ∃ datum ∈ symbols.data, token = datum.name ++ ".L"
    · obtain ⟨datum, hmem, htoken⟩ := hlow
      exact ⟨_, .low hp hmem htoken⟩
    refine ⟨_, .other hp fun datum hmem => ⟨fun he => ?_, fun he => ?_⟩⟩
    · exact hhigh ⟨datum, hmem, he⟩
    · exact hlow ⟨datum, hmem, he⟩

theorem Resolves.lookup_eq {token : String} {r : Option SymbolRef} (hr : symbols.Resolves token r)
    (h : symbols.dataNames.Nodup) : symbols.lookup token = r := by
  cases hr with
  | procedure hp => exact lookup_of_procedure? hp
  | high hp hmem htoken =>
    exact lookup_of_datum?_high hp (nameBefore?_eq_some_iff.2 htoken) ((datum?_eq_some_iff h).2 ⟨hmem, rfl⟩)
  | @low datum hp hmem htoken =>
    have hletter : nameBefore? token 'H' = none := by
      rw [htoken]
      exact nameBefore?_append_dot datum.name 'L' 'H'
    exact lookup_of_datum?_low hp hletter (nameBefore?_eq_some_iff.2 htoken) ((datum?_eq_some_iff h).2 ⟨hmem, rfl⟩)
  | other hp hother =>
    refine lookup_of_none hp fun letter name hname hl => Option.eq_none_iff_forall_ne_some.2 fun datum hd => ?_
    have htoken := nameBefore?_eq_some_iff.1 hname
    obtain ⟨hmem, rfl⟩ := (datum?_eq_some_iff h).1 hd
    rcases hl with rfl | rfl
    · exact (hother datum hmem).1 htoken
    · exact (hother datum hmem).2 htoken

/-- **A token stands for one thing**, and it is looked up as that. -/
theorem lookup_eq_iff_resolves (h : symbols.dataNames.Nodup) {token : String} {r : Option SymbolRef} :
    symbols.lookup token = r ↔ symbols.Resolves token r := by
  constructor
  · rintro rfl
    obtain ⟨r, hr⟩ := symbols.exists_resolves token
    rwa [hr.lookup_eq h]
  · exact fun hr => hr.lookup_eq h

/-- Addresses that are given to the data by their places are given to them by name as well. -/
theorem exists_placeData (h : symbols.dataNames.Nodup) (address : Nat → UInt16) : ∃ byDatum,
    symbols.placeData byDatum =
      { symbols with data := symbols.data.mapIdx fun k d => { d with address := address k } } := by
  refine ⟨fun d => address (symbols.dataNames.idxOf d.name), ?_⟩
  rw [placeData]
  congr 1
  refine List.ext_getElem? fun k => ?_
  rw [List.getElem?_map, List.getElem?_mapIdx]
  cases hk : symbols.data[k]? with
  | none => rfl
  | some datum =>
    obtain ⟨hlt, rfl⟩ := List.getElem?_eq_some_iff.1 hk
    have hidx : symbols.dataNames.idxOf symbols.data[k].name = k := by
      have hlen : k < symbols.dataNames.length := by rwa [dataNames, List.length_map]
      have hget : symbols.dataNames[k] = symbols.data[k].name := List.getElem_map _
      rw [← hget]
      exact h.idxOf_getElem k hlen
    rw [Option.map_some, Option.map_some, hidx]

end Symbols

/-! ## The index -/

/-- Data in an array, with the place of each by its name. -/
structure IndexedData where
  data : Array Datum := #[]
  index : Std.HashMap String Nat := {}

namespace IndexedData

/-- Adds data, unless there are some of that name. -/
def add (store : IndexedData) (datum : Datum) : Except Fault IndexedData :=
  if store.index.contains datum.name then .error (.duplicateSymbol datum.name)
  else .ok ⟨store.data.push datum, store.index.insert datum.name store.data.size⟩

/-- Gives every datum a new address. -/
def place (store : IndexedData) (address : Datum → UInt16) : IndexedData :=
  { store with data := store.data.map fun d => { d with address := address d } }

/-- The datum with a name, by the index. -/
def get? (store : IndexedData) (name : String) : Option Datum := store.index[name]?.bind (store.data[·]?)

/-- The data after a change. One that is refused, or that is about another table, leaves them as they are. -/
def changed (store : IndexedData) : TableChange → IndexedData
  | .datum datum =>
    match store.add datum with
    | .ok after => after
    | .error _ => store
  | .place address => store.place address
  | _ => store

/-- The data after some changes. -/
def changedAll (store : IndexedData) (history : List TableChange) : IndexedData := history.foldl changed store

/-- The index holds the place of every datum, and no other place. -/
structure Represents (store : IndexedData) (symbols : Symbols) : Prop where
  data : store.data.toList = symbols.data
  index : ∀ name k, store.index[name]? = some k ↔ ∃ datum : Datum, symbols.data[k]? = some datum ∧ datum.name = name

variable {store : IndexedData} {symbols : Symbols}

theorem getElem?_concat_eq_some_iff {α : Type} {xs : List α} {x y : α} {k : Nat} :
    (xs ++ [x])[k]? = some y ↔ xs[k]? = some y ∨ k = xs.length ∧ y = x := by
  rcases Nat.lt_trichotomy k xs.length with hk | rfl | hk
  · rw [List.getElem?_append_left hk]
    simp [Nat.ne_of_lt hk]
  · simp [eq_comm]
  · rw [List.getElem?_eq_none (by rw [List.length_append, List.length_singleton]; omega), List.getElem?_eq_none hk.le]
    simp [Nat.ne_of_gt hk]

theorem Represents.nil : ({} : IndexedData).Represents {} where
  data := rfl
  index := by simp

/-- The names in the index are those of the data. -/
theorem Represents.contains_iff (h : store.Represents symbols) {name : String} :
    store.index.contains name = true ↔ name ∈ symbols.dataNames := by
  rw [← Std.HashMap.isSome_getElem?_eq_contains, Option.isSome_iff_exists, Symbols.dataNames, List.mem_map]
  constructor
  · rintro ⟨k, hk⟩
    obtain ⟨datum, hdatum, hname⟩ := (h.index name k).1 hk
    exact ⟨datum, List.mem_of_getElem? hdatum, hname⟩
  · rintro ⟨datum, hmem, hname⟩
    obtain ⟨k, hk⟩ := List.getElem?_of_mem hmem
    exact ⟨k, (h.index name k).2 ⟨datum, hk, hname⟩⟩

/-- **Data are found through the index** as they are found by going through all of them. -/
theorem Represents.get?_eq (h : store.Represents symbols) (hn : symbols.dataNames.Nodup) (name : String) :
    store.get? name = symbols.datum? name := by
  ext datum
  rw [Symbols.datum?_eq_some_iff hn, get?, Option.bind_eq_some_iff]
  constructor
  · rintro ⟨k, hk, hdatum⟩
    rw [← Array.getElem?_toList, h.data] at hdatum
    obtain ⟨other, hother, hname⟩ := (h.index name k).1 hk
    obtain rfl := Option.some.inj (hother.symm.trans hdatum)
    exact ⟨List.mem_of_getElem? hdatum, hname⟩
  · rintro ⟨hmem, hname⟩
    obtain ⟨k, hk⟩ := List.getElem?_of_mem hmem
    refine ⟨k, (h.index name k).2 ⟨datum, hk, hname⟩, ?_⟩
    rw [← Array.getElem?_toList, h.data]
    exact hk

/-- **Data are refused alike.** -/
theorem Represents.add_eq (h : store.Represents symbols) (datum : Datum) :
    (store.add datum).map (fun _ => ()) = (symbols.addDatum datum).map fun _ => () := by
  unfold add Symbols.addDatum
  by_cases hmem : datum.name ∈ symbols.dataNames
  · rw [if_pos (h.contains_iff.2 hmem), if_pos (Symbols.datum?_isSome_iff.2 hmem)]
    rfl
  · rw [if_neg (mt h.contains_iff.1 hmem), if_neg (mt Symbols.datum?_isSome_iff.1 hmem)]
    rfl

/-- **The index stays in step.** -/
theorem Represents.changed (h : store.Represents symbols) (c : TableChange) :
    (store.changed c).Represents (symbols.changed c) := by
  rcases symbols.clashes_or_step c with ⟨other, hclash, hsame⟩ | hstep
  · rw [hsame]
    cases hclash with
    | constant | procedure => exact h
    | datum hmem =>
      rw [IndexedData.changed, add, if_pos (h.contains_iff.2 hmem)]
      exact h
  · generalize symbols.changed c = after at hstep
    cases hstep with
    | constant _ _ _ hsame | procedure _ _ _ hsame | bind _ _ hsame =>
      exact ⟨h.data.trans hsame.symm, by rw [hsame]; exact h.index⟩
    | @datum datum _ hnew hdata =>
      rw [IndexedData.changed, add, if_neg (mt h.contains_iff.1 hnew)]
      have hsize : store.data.size = symbols.data.length := by rw [← h.data, Array.length_toList]
      have hplace (name : String) (k : Nat) :
          (∃ d : Datum, (symbols.data ++ [datum])[k]? = some d ∧ d.name = name) ↔
            (∃ d : Datum, symbols.data[k]? = some d ∧ d.name = name) ∨ k = symbols.data.length ∧ datum.name = name := by
        simp only [getElem?_concat_eq_some_iff, or_and_right, exists_or, and_assoc, exists_and_left, exists_eq_left]
      refine ⟨by rw [Array.toList_push, h.data, hdata], fun name k => ?_⟩
      dsimp only
      rw [Std.HashMap.getElem?_insert, hdata, hplace, ← h.index name k, hsize]
      by_cases hname : datum.name = name
      · subst hname
        have hfree : store.index[datum.name]? ≠ some k := by
          intro hk
          obtain ⟨d, hd, hname⟩ := (h.index _ k).1 hk
          exact hnew (List.mem_map.2 ⟨d, List.mem_of_getElem? hd, hname⟩)
        simp [hfree, eq_comm]
      · simp [hname]
    | @place address _ hdata =>
      refine ⟨by rw [hdata, ← h.data]; exact Array.toList_map, fun name k => ?_⟩
      rw [hdata, List.getElem?_map]
      refine (h.index name k).trans ?_
      cases symbols.data[k]? <;> simp

theorem Represents.changedAll (h : store.Represents symbols) (history : List TableChange) :
    (store.changedAll history).Represents (symbols.changedAll history) := by
  induction history generalizing store symbols with
  | nil => exact h
  | cons c history ih => exact ih (h.changed c)

end IndexedData

/-! ## The theorem -/

/-- **The tables are maps in which the first definition of a name stands.** After any changes, refused ones among them,
the tables say what the history of the changes says; a name that is there already is refused and changes nothing, and any
other change acts on one table only. A datum is found by its name and no other one is, and a token is looked up in the
order of the tables. Data in an array with an index by name are the same data: no place in the index is out of range or
that of another name. -/
theorem tables_are_first_wins (history : List TableChange) :
    let symbols := Symbols.changedAll {} history
    let store := IndexedData.changedAll {} history
    symbols.Follows history ∧
    (∀ c name, symbols.Clashes c name →
      symbols.change c = .error (.duplicateSymbol name) ∧ symbols.changed c = symbols) ∧
    (∀ c, (∀ name, ¬ symbols.Clashes c name) →
      ∃ after, symbols.change c = .ok after ∧ symbols.changed c = after ∧ symbols.Step c after) ∧
    (∀ name datum, symbols.datum? name = some datum ↔ datum ∈ symbols.data ∧ datum.name = name) ∧
    (∀ token r, symbols.lookup token = r ↔ symbols.Resolves token r) ∧
    (∀ address : Nat → UInt16, ∃ byDatum, symbols.placeData byDatum =
      { symbols with data := symbols.data.mapIdx fun k d => { d with address := address k } }) ∧
    store.data.toList = symbols.data ∧
    (∀ name k, store.index[name]? = some k → ∃ datum : Datum, store.data[k]? = some datum ∧ datum.name = name) ∧
    (∀ name, store.get? name = symbols.datum? name) ∧
    ∀ datum, (store.add datum).map (fun _ => ()) = (symbols.addDatum datum).map fun _ => () := by
  intro symbols store
  have hfollows := Symbols.follows_changedAll history
  have hstore : store.Represents symbols := IndexedData.Represents.nil.changedAll history
  refine ⟨hfollows, fun c name h => ⟨h.change_eq, h.changed_eq⟩, fun c h => ?_,
    fun name datum => Symbols.datum?_eq_some_iff hfollows.nodup,
    fun token r => Symbols.lookup_eq_iff_resolves hfollows.nodup, Symbols.exists_placeData hfollows.nodup, hstore.data,
    fun name k hk => ?_, hstore.get?_eq hfollows.nodup, hstore.add_eq⟩
  · obtain ⟨after, hafter⟩ := Symbols.exists_change h
    exact ⟨after, hafter, Symbols.changed_of_ok hafter, Symbols.step_of_change hafter⟩
  · obtain ⟨datum, hdatum, hname⟩ := (hstore.index name k).1 hk
    rw [← hstore.data, Array.getElem?_toList] at hdatum
    exact ⟨datum, hdatum, hname⟩

/-- A datum that is defined twice, with a procedure and a constant of the same name, and that moves. -/
def sampleHistory : List TableChange :=
  [.datum ⟨"A", [1], 0, ⟨"main", 1⟩⟩, .constant "A" "0X01", .procedure "A", .bind "A" 5,
    .datum ⟨"A", [2], 0, ⟨"main", 2⟩⟩, .place fun d => d.address + 7]

/-- The first datum stands, is found where it has moved to, and the second one is refused. -/
theorem tables_are_first_wins_twice :
    (Symbols.changedAll {} sampleHistory).data = [⟨"A", [1], 7, ⟨"main", 1⟩⟩] ∧
    (Symbols.changedAll {} sampleHistory).change (.datum ⟨"A", [2], 0, ⟨"main", 2⟩⟩) =
      .error (.duplicateSymbol "A") ∧
    (∃ after, (Symbols.changedAll {} sampleHistory).change (.procedure "B") = .ok after) ∧
    (Symbols.changedAll {} sampleHistory).lookup "A" = some (.procedure (some 5)) ∧
    (Symbols.changedAll {} sampleHistory).lookup "A.H" = some (.dataHigh ⟨"A", [1], 7, ⟨"main", 1⟩⟩) ∧
    (IndexedData.changedAll {} sampleHistory).get? "A" = some ⟨"A", [1], 7, ⟨"main", 1⟩⟩ := by
  obtain ⟨hfollows, hrefused, hmade, hfound, hlookup, -, -, -, hget, -⟩ := tables_are_first_wins sampleHistory
  have hdata : (Symbols.changedAll {} sampleHistory).data = [⟨"A", [1], 7, ⟨"main", 1⟩⟩] := by rw [hfollows.data]; rfl
  have hnames : (Symbols.changedAll {} sampleHistory).procedureNames = ["A"] := rfl
  refine ⟨hdata, (hrefused _ _ (.datum ?_)).1, ?_, (hlookup _ _).2 (.procedure rfl), (hlookup _ _).2 (.high rfl ?_ rfl), ?_⟩
  · rw [Symbols.dataNames, hdata]
    exact List.mem_singleton_self _
  · obtain ⟨after, hafter, -⟩ := hmade (.procedure "B") fun name hclash => by
      cases hclash with
      | procedure hmem => rw [hnames] at hmem; simp at hmem
    exact ⟨after, hafter⟩
  · rw [hdata]
    exact List.mem_singleton_self _
  · rw [hget, hfound, hdata]
    exact ⟨List.mem_singleton_self _, rfl⟩

end Octet
