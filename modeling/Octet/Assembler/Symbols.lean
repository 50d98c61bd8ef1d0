import Octet.Assembler.Error
import Octet.Assembler.Operand
/-!
The symbols of a program: constants, procedures and data, three tables of their own.

In each table the first definition of a name stands. A token that stands for a symbol is looked up as a procedure,
then as the high or low address byte of a datum (`NAME.H`, `NAME.L`), then as a constant.

* `Symbols.operands` are the operands that a token stands for, with stand-ins for addresses not known yet;
* `Symbols.substitute` are the literal tokens that replace it.
-/

namespace Octet

/-- Data of a program, and the symbol that names their address. -/
structure Datum where
  name : String
  bytes : List UInt8
  /-- Known once the size of the code is. -/
  address : UInt16 := 0
  loc : Location
deriving DecidableEq, Repr

/-- The tables, each in the order of definition. -/
structure Symbols where
  constants : List (String × String) := []
  /-- The address is there once it is known. -/
  procedures : List (String × Option UInt16) := []
  data : List Datum := []
deriving DecidableEq, Repr, Inhabited

/-- What a token stands for. -/
inductive SymbolRef where
  | procedure (address : Option UInt16)
  | dataHigh (datum : Datum)
  | dataLow (datum : Datum)
  | constant (text : String)
deriving DecidableEq, Repr

namespace Symbols

/-! ## Tables -/

/-- The text of a constant. -/
def constant? (symbols : Symbols) (name : String) : Option String := symbols.constants.lookup name

/-- A procedure, with its address if it is known. -/
def procedure? (symbols : Symbols) (name : String) : Option (Option UInt16) :=
  symbols.procedures.lookup name

/-- The datum with a name. -/
def datum? (symbols : Symbols) (name : String) : Option Datum :=
  symbols.data.find? fun d => d.name = name

/-- Defines a constant, unless there is one of that name. -/
def defineConstant (symbols : Symbols) (name text : String) : Except Fault Symbols :=
  if (symbols.constant? name).isSome then .error (.duplicateSymbol name)
  else .ok { symbols with constants := symbols.constants ++ [(name, text)] }

/-- Declares a procedure, unless there is one of that name. -/
def declareProcedure (symbols : Symbols) (name : String) : Except Fault Symbols :=
  if (symbols.procedure? name).isSome then .error (.duplicateSymbol name)
  else .ok { symbols with procedures := symbols.procedures ++ [(name, none)] }

/-- Gives a procedure its address; one that was not declared is added. -/
def bindProcedure (symbols : Symbols) (name : String) (address : UInt16) : Symbols :=
  if (symbols.procedure? name).isSome then
    let bind (p : String × Option UInt16) := if p.1 = name then (name, some address) else p
    { symbols with procedures := symbols.procedures.map bind }
  else { symbols with procedures := symbols.procedures ++ [(name, some address)] }

/-- Adds data, unless there are some of that name. -/
def addDatum (symbols : Symbols) (datum : Datum) : Except Fault Symbols :=
  if (symbols.datum? datum.name).isSome then .error (.duplicateSymbol datum.name)
  else .ok { symbols with data := symbols.data ++ [datum] }

/-- Gives every datum a new address. -/
def placeData (symbols : Symbols) (address : Datum → UInt16) : Symbols :=
  { symbols with data := symbols.data.map fun d => { d with address := address d } }

/-! ## Tokens -/

/-- The name in front of a dot and one more letter at the end of a token. -/
def nameBefore? (token : String) (letter : Char) : Option String :=
  match token.toList.reverse with
  | c :: '.' :: name => if c = letter then some (String.ofList name.reverse) else none
  | _ => none

/-- What a token stands for, if it stands for a symbol. -/
def lookup (symbols : Symbols) (token : String) : Option SymbolRef :=
  let procedure := (symbols.procedure? token).map SymbolRef.procedure
  let high := (nameBefore? token 'H').bind fun name => (symbols.datum? name).map SymbolRef.dataHigh
  let low := (nameBefore? token 'L').bind fun name => (symbols.datum? name).map SymbolRef.dataLow
  let constant := (symbols.constant? token).map SymbolRef.constant
  procedure <|> high <|> low <|> constant

/-- The operand that a literal token stands for. -/
def literal (token : String) : Except Fault Operand :=
  match parseOperand token with
  | some operand => .ok operand
  | none => .error (.invalidSymbol token)

/-- The operands in the text of a constant. -/
def constantOperands (text : String) : Except Fault (List Operand) := (splitTokens text).mapM literal

/-- The operands that a token stands for. An address that is not known yet counts as 0; the forms of the operands
do not depend on it. -/
def operands (symbols : Symbols) (token : String) : Except Fault (List Operand) :=
  match symbols.lookup token with
  | some (.procedure address) => .ok [.word (address.getD 0)]
  | some (.dataHigh datum) => .ok [.byte (highByte datum.address)]
  | some (.dataLow datum) => .ok [.byte (lowByte datum.address)]
  | some (.constant text) => constantOperands text
  | none => do return [← literal token]

/-- The literal tokens that replace a token; a literal token stays as it is. -/
def substitute (symbols : Symbols) (token : String) : Except Fault (List String) :=
  match symbols.lookup token with
  | some (.procedure (some address)) => .ok [byteToken (highByte address), byteToken (lowByte address)]
  | some (.procedure none) => .error (.invalidSymbol token)
  | some (.dataHigh datum) => .ok [byteToken (highByte datum.address)]
  | some (.dataLow datum) => .ok [byteToken (lowByte datum.address)]
  | some (.constant text) => do
    let _ ← constantOperands text
    return splitTokens text
  | none => do
    let _ ← literal token
    return [token]

end Symbols

end Octet
