import CFunction.Json.Mkey

/-!
# Round trip of the device key

What `unmarshal_mkey` reads from the text of `marshal_mkey`, field by field. The two are written
as two lists of members, which meet in the tree `mkeyTree`.
-/

namespace CFunction
namespace DeviceKey

open CString CJson

/-- The strings of the address rows. -/
def rowStrings (addr : Vector (CharArray 16) 10) : List Bytes := addr.toList.map CharArray.str

/-- The addresses in front of the first empty row. -/
def addresses (m : Mkey) : List Bytes := (rowStrings m.addr).takeWhile (· ≠ [])

/-- A record whose arrays are NUL-terminated. -/
structure Terminated (m : Mkey) : Prop where
  product : 0 ∈ m.product.bytes
  productSn : 0 ∈ m.productSn.bytes
  productKey : 0 ∈ m.productKey.bytes
  deviceName : 0 ∈ m.deviceName.bytes
  deviceSecret : 0 ∈ m.deviceSecret.bytes
  url : 0 ∈ m.mqttInfo.url.bytes
  port : InInt m.mqttInfo.port
  addr : ∀ row ∈ m.addr, 0 ∈ row.bytes

/-- The same strings and scalars. Behind the first empty address all are empty. -/
structure SameKey (m m' : Mkey) : Prop where
  product : m'.product.str = m.product.str
  productSn : m'.productSn.str = m.productSn.str
  productKey : m'.productKey.str = m.productKey.str
  deviceName : m'.deviceName.str = m.deviceName.str
  deviceSecret : m'.deviceSecret.str = m.deviceSecret.str
  url : m'.mqttInfo.url.str = m.mqttInfo.url.str
  port : m'.mqttInfo.port = m.mqttInfo.port
  isLive : m'.mqttInfo.isLive = m.mqttInfo.isLive
  addr : rowStrings m'.addr =
    addresses m ++ List.replicate (10 - (addresses m).length) []

/-- The tree of a record. -/
def mkeyTree (m : Mkey) : CJson :=
  .object [(text "Product", .string m.product.str), (text "ProductSn", .string m.productSn.str),
    (text "ProductKey", .string m.productKey.str), (text "DeviceName", .string m.deviceName.str),
    (text "DeviceSecret", .string m.deviceSecret.str),
    (text "MqttInfo", .object [(text "Url", .string m.mqttInfo.url.str),
      (text "Port", .int m.mqttInfo.port), (text "IsLive", .bool m.mqttInfo.isLive)]),
    (text "Address", .array ((addresses m).map .string))]

theorem addString_eq {n : Nat} {a : CharArray n} (h : 0 ∈ a.bytes)
    (members : List (Bytes × CJson)) (name : String) :
    addString (.object members) name a = some
      (.object (members ++ [(text name, .string a.str)])) := by
  rw [addString, CharArray.read, if_pos h]
  rfl

/-- The test of the loop: the string of the row is empty. -/
theorem head?_eq_zero_iff {n : Nat} {a : CharArray n} (h : 0 ∈ a.bytes) :
    a.bytes.head? = some 0 ↔ a.str = [] := by
  obtain ⟨hne, rest, hrest⟩ := contains_of_mem h
  rw [CharArray.str]
  cases hs : cstr a.bytes with
  | nil =>
    rw [hrest, hs]
    exact iff_of_true rfl rfl
  | cons b s =>
    rw [hs] at hrest hne
    rw [hrest]
    refine iff_of_false ?_ (List.cons_ne_nil b s)
    intro hb
    exact hne (List.mem_cons.2 (Or.inl (Option.some.inj hb).symm))

theorem addAddr_eq (rows : List (CharArray 16)) : ∀ items : List CJson,
    (∀ row ∈ rows, 0 ∈ row.bytes) → addAddr (.array items) rows =
      some (.array (items ++ ((rows.map CharArray.str).takeWhile (· ≠ [])).map .string)) := by
  induction rows with
  | nil =>
    intro items _
    simp [addAddr]
  | cons row rows ih =>
    intro items h
    have hrow := h row List.mem_cons_self
    have hrows := fun r hr => h r (List.mem_cons_of_mem row hr)
    by_cases hempty : row.str = []
    · rw [addAddr, if_pos ((head?_eq_zero_iff hrow).2 hempty)]
      simp [hempty]
    · rw [addAddr, if_neg (mt (head?_eq_zero_iff hrow).1 hempty), CharArray.read, if_pos hrow]
      refine (ih (items ++ [.string row.str]) hrows).trans ?_
      simp [hempty]

theorem marshalTree_eq {m : Mkey} (h : Terminated m) : marshalTree m = some (mkeyTree m) := by
  have haddr := addAddr_eq m.addr.toList [] (by simpa using h.addr)
  simp only [marshalTree, addString_eq h.product, addString_eq h.productSn,
    addString_eq h.productKey, addString_eq h.deviceName, addString_eq h.deviceSecret,
    addString_eq h.url, Option.bind_eq_bind, Option.bind_some, haddr]
  rfl

theorem rowStrings_length (addr : Vector (CharArray 16) 10) : (rowStrings addr).length = 10 := by
  simp [rowStrings]

/-- The strings of the items. -/
def itemStrings (items : List CJson) : List Bytes :=
  items.filterMap fun item : CJson => stringValue (some item)

/-- Items that are strings, in the rows from `i` on. -/
theorem copyAddr_rows {strkey : Option CJson} {s₀ : Bytes} (hkey : stringValue strkey = some s₀)
    (items : List CJson) : ∀ (i : Nat) (addr : Vector (CharArray 16) 10),
    (∀ item ∈ items, (stringValue (some item)).isSome) → i + items.length ≤ 10 →
      ∃ addr', copyAddr strkey i addr items = some addr' ∧
        addr'.toList = addr.toList.take i ++ (itemStrings items).map (CharArray.zero 16).strncpy ++
          addr.toList.drop (i + items.length) := by
  induction items with
  | nil =>
    intro i addr _ _
    exact ⟨addr, rfl, by simp [itemStrings]⟩
  | cons item items ih =>
    intro i addr hitems hlen
    rw [List.length_cons] at hlen
    have hi : i < 10 := by omega
    have hsize : i < addr.toList.length := by
      rw [Vector.length_toList]
      exact hi
    obtain ⟨s, hs⟩ := Option.isSome_iff_exists.1 (hitems item List.mem_cons_self)
    obtain ⟨addr', hcopy, hrows⟩ := ih (i + 1) (addr.set i (addr[i].strncpy s))
      (fun item' h => hitems item' (List.mem_cons_of_mem item h)) (by omega)
    have hstrings : itemStrings (item :: items) = s :: itemStrings items := by
      rw [itemStrings, List.filterMap_cons, hs]
      rfl
    refine ⟨addr', ?_, ?_⟩
    · rw [copyAddr, hkey]
      simp only [hs, Option.bind_eq_bind, Option.bind_some, dif_pos hi]
      exact hcopy
    · rw [hrows, Vector.toList_set, take_set_succ _ hsize, drop_set_of_lt _ (by omega), hstrings,
        List.map_cons, List.length_cons, Nat.add_right_comm i 1, Nat.add_assoc i, List.append_assoc,
        List.append_assoc, List.append_assoc]
      rfl

theorem itemStrings_string (strs : List Bytes) : itemStrings (strs.map .string) = strs := by
  rw [itemStrings, List.filterMap_map]
  exact List.filterMap_some

/-- The loop over the addresses copies them to the rows from `i` on. -/
theorem copyAddr_eq {strkey : Option CJson} {s₀ : Bytes} (hkey : stringValue strkey = some s₀)
    (strs : List Bytes) (i : Nat) (addr : Vector (CharArray 16) 10)
    (hstrs : ∀ s ∈ strs, 0 ∉ s ∧ s.length < 16) (hlen : i + strs.length ≤ 10) :
    ∃ addr', copyAddr strkey i addr (strs.map .string) = some addr' ∧
      rowStrings addr' = (rowStrings addr).take i ++ strs ++
        (rowStrings addr).drop (i + strs.length) := by
  have hitems : ∀ item ∈ strs.map CJson.string, (stringValue (some item)).isSome := by
    intro item hitem
    obtain ⟨s, -, rfl⟩ := List.mem_map.1 hitem
    rfl
  obtain ⟨addr', hcopy, hrows⟩ :=
    copyAddr_rows hkey (strs.map .string) i addr hitems (by rwa [List.length_map])
  have hread : (strs.map (CharArray.zero 16).strncpy).map CharArray.str = strs := by
    rw [List.map_map]
    refine (List.map_congr_left fun s hs => ?_).trans (List.map_id strs)
    exact CharArray.str_strncpy _ (hstrs s hs).1 (hstrs s hs).2
  refine ⟨addr', hcopy, ?_⟩
  rw [rowStrings, hrows, itemStrings_string, List.map_append, List.map_append, hread, List.map_take,
    List.map_drop, List.length_map]
  rfl

theorem unmarshalMqtt_members {url : Bytes} {port : Int} {isLive : Bool} (hport : InInt port)
    (m : MqttInfo) (status : Int) :
    unmarshalMqtt (some (.object [(text "Url", .string url), (text "Port", .int port),
        (text "IsLive", .bool isLive)])) m status =
      ({ url := m.url.strncpy url, port := port, isLive := isLive }, status + 1 + 1 + 1) := by
  have hportItem : getObjectItem (some (.object [(text "Url", .string url),
      (text "Port", .int port), (text "IsLive", .bool isLive)])) (text "Port") =
        some (.int port) := rfl
  simp only [unmarshalMqtt, hportItem, intValue, toInt32_of_inInt hport]
  rfl

/-- What `unmarshal_mkey` reads into a zero-filled record from the tree of `m`. -/
theorem unmarshalMkey_tree (parse : Bytes → Option CJson) {m : Mkey} {mstr : Bytes}
    (hparse : parse mstr = some (mkeyTree m)) (hport : InInt m.mqttInfo.port)
    {addr : Vector (CharArray 16) 10}
    (haddr : copyAddr (some (.string m.mqttInfo.url.str)) 0 Mkey.zero.addr
      ((addresses m).map .string) = some addr) (hten : (addresses m).length ≤ 10) :
    unmarshalMkey parse mstr Mkey.zero = some
      ({ product := Mkey.zero.product.strncpy m.product.str
         productSn := Mkey.zero.productSn.strncpy m.productSn.str
         productKey := Mkey.zero.productKey.strncpy m.productKey.str
         deviceName := Mkey.zero.deviceName.strncpy m.deviceName.str
         deviceSecret := Mkey.zero.deviceSecret.strncpy m.deviceSecret.str
         mqttInfo :=
          { url := Mkey.zero.mqttInfo.url.strncpy m.mqttInfo.url.str
            port := m.mqttInfo.port
            isLive := m.mqttInfo.isLive }
         addr := addr }, 8) := by
  have hproduct : getObjectItem (mkeyTree m) (text "Product") = some (.string m.product.str) := rfl
  have hproductSn : getObjectItem (mkeyTree m) (text "ProductSn") =
      some (.string m.productSn.str) := rfl
  have hproductKey : getObjectItem (mkeyTree m) (text "ProductKey") =
      some (.string m.productKey.str) := rfl
  have hdeviceName : getObjectItem (mkeyTree m) (text "DeviceName") =
      some (.string m.deviceName.str) := rfl
  have hdeviceSecret : getObjectItem (mkeyTree m) (text "DeviceSecret") =
      some (.string m.deviceSecret.str) := rfl
  have hmqtt : getObjectItem (mkeyTree m) (text "MqttInfo") =
      some (.object [(text "Url", .string m.mqttInfo.url.str), (text "Port", .int m.mqttInfo.port),
        (text "IsLive", .bool m.mqttInfo.isLive)]) := rfl
  have haddress : getObjectItem (mkeyTree m) (text "Address") =
      some (.array ((addresses m).map .string)) := rfl
  have hsize : toInt32 ((addresses m).map CJson.string).length = (addresses m).length := by
    rw [List.length_map]
    exact toInt32_eq_nat rfl (by omega)
  have htake : ((addresses m).map CJson.string).take (toInt32
      ((addresses m).map CJson.string).length).toNat = (addresses m).map .string := by
    rw [hsize, Int.toNat_natCast, ← List.length_map (f := CJson.string), List.take_length]
  simp only [unmarshalMkey, hparse, hproduct, hproductSn, hproductKey, hdeviceName, hdeviceSecret,
    hmqtt, haddress, copyString, stringValue, isObject, arrayItems, if_pos, htake]
  rw [unmarshalMqtt_members hport]
  have hurl : getObjectItem (some (.object [(text "Url", .string m.mqttInfo.url.str),
      (text "Port", .int m.mqttInfo.port), (text "IsLive", .bool m.mqttInfo.isLive)]))
        (text "Url") = some (.string m.mqttInfo.url.str) := rfl
  rw [hurl, haddr]
  rfl

theorem addresses_short {m : Mkey} (h : Terminated m) :
    ∀ s ∈ addresses m, 0 ∉ s ∧ s.length < 16 := by
  intro s hs
  have hrow := (List.takeWhile_prefix (· ≠ [])).subset hs
  obtain ⟨row, hmem, rfl⟩ := List.mem_map.1 hrow
  have hnul := h.addr row (by simpa using hmem)
  exact ⟨row.zero_notMem_str hnul, row.str_length_lt hnul⟩

theorem addresses_length (m : Mkey) : (addresses m).length ≤ 10 := by
  have hle := (List.takeWhile_prefix (· ≠ []) (l := rowStrings m.addr)).length_le
  rwa [rowStrings_length] at hle

theorem rowStrings_zero : rowStrings Mkey.zero.addr = List.replicate 10 [] := by
  simp [rowStrings, Mkey.zero]

/-- What the parser makes of the printed text is the tree that was printed. -/
def Reparses (print : CJson → Bytes) (parse : Bytes → Option CJson) (m : Mkey) : Prop :=
  ∀ tree, marshalTree m = some tree → parse (print tree) = some tree

/-- What `unmarshal_mkey` makes of the tree of a record is that record. -/
theorem unmarshalMkey_same (parse : Bytes → Option CJson) {m : Mkey} (h : Terminated m)
    {mstr : Bytes} (hparse : parse mstr = some (mkeyTree m)) :
    ∃ m', unmarshalMkey parse mstr Mkey.zero = some (m', 8) ∧ SameKey m m' := by
  have hten := addresses_length m
  have hurl : stringValue (some (.string m.mqttInfo.url.str)) = some m.mqttInfo.url.str := rfl
  obtain ⟨addr, hcopy, hrows⟩ := copyAddr_eq hurl (addresses m) 0 Mkey.zero.addr
    (addresses_short h) (by omega)
  refine ⟨_, unmarshalMkey_tree parse hparse h.port hcopy hten, ?_⟩
  have hcopied : ∀ {n : Nat} (b : CharArray n), 0 ∈ b.bytes →
      ((CharArray.zero n).strncpy b.str).str = b.str := by
    intro n b hb
    exact CharArray.str_strncpy _ (b.zero_notMem_str hb) (b.str_length_lt hb)
  refine ⟨hcopied _ h.product, hcopied _ h.productSn, hcopied _ h.productKey,
    hcopied _ h.deviceName, hcopied _ h.deviceSecret, hcopied _ h.url, rfl, rfl, ?_⟩
  rw [hrows, rowStrings_zero, Nat.zero_add, List.drop_replicate, List.take_zero, List.nil_append]

theorem mkey_round_trip {print : CJson → Bytes} {parse : Bytes → Option CJson} {m : Mkey}
    (h : Terminated m) (hjson : Reparses print parse m) :
    ∃ mstr m', marshalMkey print m = some mstr ∧
      unmarshalMkey parse mstr Mkey.zero = some (m', 8) ∧ SameKey m m' := by
  have htree := marshalTree_eq h
  obtain ⟨m', hread, hsame⟩ := unmarshalMkey_same parse h (hjson _ htree)
  refine ⟨print (mkeyTree m), m', ?_, hread, hsame⟩
  rw [marshalMkey, htree]
  rfl

/-- The device of the sample program. -/
def boxBox : Mkey where
  product := (CharArray.zero 20).strncpy (text "BoxBox")
  productSn := (CharArray.zero 20).strncpy (text "WB0123456789")
  productKey := (CharArray.zero 20).strncpy (text "aap0d4WfhqJ")
  deviceName := (CharArray.zero 20).strncpy (text "abcdefgh")
  deviceSecret := (CharArray.zero 64).strncpy (text "dcda624f0e8be108931df60910c68354")
  mqttInfo :=
    { url := (CharArray.zero 32).strncpy (text "www.iotcloud.com"), port := 1881, isLive := false }
  addr := ((Vector.replicate 10 (CharArray.zero 16)).set 0
    ((CharArray.zero 16).strncpy (text "192.168.3.111"))).set 1
      ((CharArray.zero 16).strncpy (text "192.168.3.222"))

/-- The text that the sample program prints. -/
def boxBoxText : Bytes :=
  text ("\x7b\"Product\":\"BoxBox\",\"ProductSn\":\"WB0123456789\"," ++
    "\"ProductKey\":\"aap0d4WfhqJ\",\"DeviceName\":\"abcdefgh\"," ++
    "\"DeviceSecret\":\"dcda624f0e8be108931df60910c68354\"," ++
    "\"MqttInfo\":\x7b\"Url\":\"www.iotcloud.com\",\"Port\":1881,\"IsLive\":false\x7d," ++
    "\"Address\":[\"192.168.3.111\",\"192.168.3.222\"]\x7d")

theorem mkey_round_trip_boxBox :
    ∃ mstr m', marshalMkey (fun _ => boxBoxText) boxBox = some mstr ∧
      unmarshalMkey (fun _ => some (mkeyTree boxBox)) mstr Mkey.zero = some (m', 8) ∧
        SameKey boxBox m' := by
  have hterminated : Terminated boxBox := by
    refine ⟨by decide, by decide, by decide, by decide, by decide, by decide, by decide, ?_⟩
    decide
  refine mkey_round_trip hterminated ?_
  intro tree htree
  rw [marshalTree_eq hterminated] at htree
  exact htree

end DeviceKey
end CFunction
