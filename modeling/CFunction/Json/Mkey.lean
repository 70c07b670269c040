import CFunction.Json.CJson
import CFunction.Misc.CharArray
import CFunction.Misc.CInt

/-!
# The device key as JSON

`marshal_mkey` writes a record of `char` arrays as a JSON text, and `unmarshal_mkey` reads such a
text into a record. Printing a tree and parsing a text are parameters. All allocations succeed,
and the record is not `NULL`.
-/

namespace CFunction
namespace DeviceKey

open CString CJson

structure MqttInfo where
  url : CharArray 32
  port : Int
  isLive : Bool
  deriving DecidableEq

/-- `mkey_t` -/
structure Mkey where
  product : CharArray 20
  productSn : CharArray 20
  productKey : CharArray 20
  deviceName : CharArray 20
  deviceSecret : CharArray 64
  mqttInfo : MqttInfo
  addr : Vector (CharArray 16) 10
  deriving DecidableEq

/-- `memset(m, 0, sizeof(*m))` -/
def Mkey.zero : Mkey where
  product := .zero 20
  productSn := .zero 20
  productKey := .zero 20
  deviceName := .zero 20
  deviceSecret := .zero 64
  mqttInfo := { url := .zero 32, port := 0, isLive := false }
  addr := Vector.replicate 10 (.zero 16)

/-- `cJSON_AddStringToObject(object, name, a)` -/
def addString {n : Nat} (object : CJson) (name : String) (a : CharArray n) : Option CJson := do
  let s ← a.read
  some (object.addItemToObject (text name) (.string s))

/-- The loop over the addresses, up to the first empty one. -/
def addAddr (jaddr : CJson) : List (CharArray 16) → Option CJson
  | [] => some jaddr
  | row :: rows =>
    if row.bytes.head? = some 0 then some jaddr
    else do
      let s ← row.read
      addAddr (jaddr.addItemToArray (.string s)) rows

/-- The tree that `marshal_mkey` builds. -/
def marshalTree (m : Mkey) : Option CJson := do
  let jkey ← addString (.object []) "Product" m.product
  let jkey ← addString jkey "ProductSn" m.productSn
  let jkey ← addString jkey "ProductKey" m.productKey
  let jkey ← addString jkey "DeviceName" m.deviceName
  let jkey ← addString jkey "DeviceSecret" m.deviceSecret
  let jmqtt ← addString (.object []) "Url" m.mqttInfo.url
  let jmqtt := jmqtt.addItemToObject (text "Port") (.int m.mqttInfo.port)
  let jmqtt := jmqtt.addItemToObject (text "IsLive") (.bool m.mqttInfo.isLive)
  -- the source adds `jmqtt` while it is still empty, and fills the same item afterwards
  let jkey := jkey.addItemToObject (text "MqttInfo") jmqtt
  let jaddr ← addAddr (.array []) m.addr.toList
  some (jkey.addItemToObject (text "Address") jaddr)

def marshalMkey (print : CJson → Bytes) (m : Mkey) : Option Bytes := do
  let jkey ← marshalTree m
  some (print jkey)

/-- One string field: the copy, and the count of the fields found. -/
def copyString {n : Nat} (strkey : Option CJson) (a : CharArray n) (status : Int) :
    CharArray n × Int :=
  match stringValue strkey with
  | some s => (a.strncpy s, status + 1)
  | none => (a, status)

/-- The members of `"MqttInfo"`, when it is an object. -/
def unmarshalMqtt (jmqtt : Option CJson) (m : MqttInfo) (status : Int) : MqttInfo × Int :=
  let (url, status) := copyString (getObjectItem jmqtt (text "Url")) m.url status
  let (port, status) :=
    match intValue (getObjectItem jmqtt (text "Port")) with
    | some valueint => (toInt32 valueint, status + 1)
    | none => (m.port, status)
  let (isLive, status) :=
    match boolValue (getObjectItem jmqtt (text "IsLive")) with
    | some valueint => (valueint, status + 1)
    | none => (m.isLive, status)
  ({ url := url, port := port, isLive := isLive }, status)

/-- The loop over the items of `"Address"`. Its test is about `strkey`, not about the item; an
item without a string, and a row behind the last one, have no result. -/
def copyAddr (strkey : Option CJson) (i : Nat) (addr : Vector (CharArray 16) 10) :
    List CJson → Option (Vector (CharArray 16) 10)
  | [] => some addr
  | jaddrItem :: items =>
    match stringValue strkey with
    | none => copyAddr strkey (i + 1) addr items
    | some _ => do
      let s ← stringValue (some jaddrItem)
      if h : i < 10 then
        copyAddr strkey (i + 1) (addr.set i (addr[i].strncpy s)) items
      else none

/-- The record that the call leaves, and its result. -/
def unmarshalMkey (parse : Bytes → Option CJson) (mstr : Bytes) (m : Mkey) :
    Option (Mkey × Int) :=
  match parse mstr with
  | none => some (m, 0)
  | some jkey => do
    let strkey := getObjectItem jkey (text "Product")
    let (product, status) := copyString strkey m.product 0
    let strkey := getObjectItem jkey (text "ProductSn")
    let (productSn, status) := copyString strkey m.productSn status
    let strkey := getObjectItem jkey (text "ProductKey")
    let (productKey, status) := copyString strkey m.productKey status
    let strkey := getObjectItem jkey (text "DeviceName")
    let (deviceName, status) := copyString strkey m.deviceName status
    let strkey := getObjectItem jkey (text "DeviceSecret")
    let (deviceSecret, status) := copyString strkey m.deviceSecret status
    let jmqtt := getObjectItem jkey (text "MqttInfo")
    let strkey := if isObject jmqtt then getObjectItem jmqtt (text "Url") else strkey
    let (mqttInfo, status) :=
      if isObject jmqtt then unmarshalMqtt jmqtt m.mqttInfo status else (m.mqttInfo, status)
    let addr ←
      match arrayItems (getObjectItem jkey (text "Address")) with
      | none => some m.addr
      | some items => copyAddr strkey 0 m.addr (items.take (toInt32 items.length).toNat)
    if status ≠ 8 then
      some (Mkey.zero, 0)
    else
      some ({ product := product, productSn := productSn, productKey := productKey,
              deviceName := deviceName, deviceSecret := deviceSecret, mqttInfo := mqttInfo,
              addr := addr }, status)

end DeviceKey
end CFunction
