import StockMesh.Host.Answer

/-! # Values of JSON

What a response of an RPC node is read from (`serde_json::Value`). A node may answer anything, so that
every access has a value to return for a response of another shape. -/

namespace StockMesh.Host

/-- The numbers of JSON, as the reader tells them apart. -/
inductive Number
  | natural (n : ℕ)
  | negative (n : ℕ)
  | real (bits : UInt64)
  deriving DecidableEq

/-- A value of JSON. -/
inductive Value
  | null
  | bool (b : Bool)
  | number (n : Number)
  | string (s : String)
  | array (items : List Value)
  | object (fields : List (String × Value))

namespace Value

/-- `is_null`. -/
def isNull : Value → Bool
  | .null => true
  | _ => false

/-- `as_str`. -/
def asStr : Value → Option String
  | .string s => some s
  | _ => none

/-- `as_u64`. -/
def asU64 : Value → Option ℕ
  | .number (.natural n) => some n
  | _ => none

/-- `as_array`. -/
def asArray : Value → Option (List Value)
  | .array items => some items
  | _ => none

/-- `get` with a field name. -/
def get : Value → String → Option Value
  | .object fields, name => fields.lookup name
  | _, _ => none

/-- `value[name]`: a missing field is null. -/
def index (v : Value) (name : String) : Value := (v.get name).getD .null

end Value

/-- A node: the hash of its first block that it must tell, and its answers. -/
structure Rpc where
  genesis : String
  /-- `Rpc::call` of a method with its parameters. -/
  call : String → Value → Answer Value

/-- `check_genesis`. -/
def Rpc.checkGenesis (rpc : Rpc) : Answer Unit := do
  let hash ← rpc.call "getGenesisHash" (.array [])
  refuse (hash.asStr ≠ some rpc.genesis) "wrong genesis"

end StockMesh.Host
