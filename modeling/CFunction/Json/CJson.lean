import CFunction.Misc.CString

/-!
# JSON trees

The items of a document, and the functions by which they are built and looked up. An item that
is not there is `none`; of a `double` only the type is read.
-/

namespace CFunction

open CString

inductive CJson where
  | null
  | bool (valueint : Bool)
  | int (valueint : Int)
  | double
  | string (valuestring : Bytes)
  | array (items : List CJson)
  | object (members : List (Bytes × CJson))

namespace CJson

/-- `cJSON_AddItemToObject` -/
def addItemToObject (object : CJson) (name : Bytes) (item : CJson) : CJson :=
  match object with
  | .object members => .object (members ++ [(name, item)])
  | other => other

/-- `cJSON_AddItemToArray` -/
def addItemToArray (array : CJson) (item : CJson) : CJson :=
  match array with
  | .array items => .array (items ++ [item])
  | other => other

/-- `cJSON_GetObjectItemCaseSensitive`: the first member of that name. -/
def getObjectItem (object : Option CJson) (name : Bytes) : Option CJson :=
  match object with
  | some (.object members) => (members.find? (·.1 = name)).map Prod.snd
  | _ => none

/-- `cJSON_IsString(item) && (item->valuestring != NULL)` -/
def stringValue : Option CJson → Option Bytes
  | some (.string valuestring) => some valuestring
  | _ => none

/-- `item->valueint`, if `cJSON_IsInt(item)`. -/
def intValue : Option CJson → Option Int
  | some (.int valueint) => some valueint
  | _ => none

/-- `cJSON_IsTrue(item)`, if `cJSON_IsBool(item)`. -/
def boolValue : Option CJson → Option Bool
  | some (.bool valueint) => some valueint
  | _ => none

def isObject : Option CJson → Bool
  | some (.object _) => true
  | _ => false

/-- The children, if `cJSON_IsArray(item)`. -/
def arrayItems : Option CJson → Option (List CJson)
  | some (.array items) => some items
  | _ => none

end CJson
end CFunction
