import CFunction.Json.Proofs.MkeyRoundTrip

/-!
# Calls of `unmarshal_mkey`

The eight members are counted one by one, and a count of eight says that all are there. The
addresses are copied in between: under a test of another item, and without being counted.
-/

namespace CFunction
namespace DeviceKey

open CString CJson

variable {parse : Bytes → Option CJson} {mstr : Bytes} {jkey : CJson} {m : Mkey}

/-! ### What the document holds -/

/-- The eight members that are counted. -/
structure Complete (jkey : CJson) : Prop where
  product : (stringValue (getObjectItem jkey (text "Product"))).isSome
  productSn : (stringValue (getObjectItem jkey (text "ProductSn"))).isSome
  productKey : (stringValue (getObjectItem jkey (text "ProductKey"))).isSome
  deviceName : (stringValue (getObjectItem jkey (text "DeviceName"))).isSome
  deviceSecret : (stringValue (getObjectItem jkey (text "DeviceSecret"))).isSome
  mqttInfo : isObject (getObjectItem jkey (text "MqttInfo"))
  url : (stringValue (getObjectItem (getObjectItem jkey (text "MqttInfo")) (text "Url"))).isSome
  port : (intValue (getObjectItem (getObjectItem jkey (text "MqttInfo")) (text "Port"))).isSome
  isLive : (boolValue (getObjectItem (getObjectItem jkey (text "MqttInfo")) (text "IsLive"))).isSome

/-- The item that `strkey` points to when the addresses are read. -/
def testedItem (jkey : CJson) : Option CJson :=
  if isObject (getObjectItem jkey (text "MqttInfo")) then
    getObjectItem (getObjectItem jkey (text "MqttInfo")) (text "Url")
  else getObjectItem jkey (text "DeviceSecret")

/-- The items of `"Address"` that the loop visits. -/
def visitedItems (jkey : CJson) : List CJson :=
  match arrayItems (getObjectItem jkey (text "Address")) with
  | none => []
  | some items => items.take (toInt32 items.length).toNat

/-! ### Counting -/

/-- What a field adds to the count. -/
def found {α : Type} (value : Option α) : Int := if value.isSome then 1 else 0

theorem found_le_one {α : Type} (value : Option α) : found value ≤ 1 := by
  cases value with
  | none => exact Int.zero_le_ofNat 1
  | some a => exact Int.le_refl 1

theorem found_eq_one_iff {α : Type} {value : Option α} : found value = 1 ↔ value.isSome := by
  cases value with
  | none => exact iff_of_false (show ¬ (0 : Int) = 1 by decide) Bool.false_ne_true
  | some a => exact iff_of_true rfl rfl

/-- A string field behind its copy. -/
def filled {n : Nat} (value : Option Bytes) (a : CharArray n) : CharArray n :=
  match value with
  | some s => a.strncpy s
  | none => a

theorem copyString_eq {n : Nat} (strkey : Option CJson) (a : CharArray n) (status : Int) :
    copyString strkey a status =
      (filled (stringValue strkey) a, status + found (stringValue strkey)) := by
  rw [copyString]
  cases stringValue strkey with
  | none => exact congrArg (Prod.mk a) (Int.add_zero status).symm
  | some s => rfl

/-- The members of `"MqttInfo"` behind their copies. -/
def filledMqtt (jmqtt : Option CJson) (m : MqttInfo) : MqttInfo where
  url := filled (stringValue (getObjectItem jmqtt (text "Url"))) m.url
  port := ((intValue (getObjectItem jmqtt (text "Port"))).map toInt32).getD m.port
  isLive := (boolValue (getObjectItem jmqtt (text "IsLive"))).getD m.isLive

theorem unmarshalMqtt_eq (jmqtt : Option CJson) (m : MqttInfo) (status : Int) :
    unmarshalMqtt jmqtt m status = (filledMqtt jmqtt m,
      status + found (stringValue (getObjectItem jmqtt (text "Url"))) +
        found (intValue (getObjectItem jmqtt (text "Port"))) +
        found (boolValue (getObjectItem jmqtt (text "IsLive")))) := by
  rw [unmarshalMqtt, copyString_eq, filledMqtt]
  cases intValue (getObjectItem jmqtt (text "Port")) with
  | none =>
    cases boolValue (getObjectItem jmqtt (text "IsLive")) with
    | none => simp [found]
    | some b => simp [found]
  | some n =>
    cases boolValue (getObjectItem jmqtt (text "IsLive")) with
    | none => simp [found]
    | some b => simp [found]

/-- The count at the end. -/
def status (jkey : CJson) : Int :=
  found (stringValue (getObjectItem jkey (text "Product"))) +
    found (stringValue (getObjectItem jkey (text "ProductSn"))) +
    found (stringValue (getObjectItem jkey (text "ProductKey"))) +
    found (stringValue (getObjectItem jkey (text "DeviceName"))) +
    found (stringValue (getObjectItem jkey (text "DeviceSecret"))) +
    if isObject (getObjectItem jkey (text "MqttInfo")) then
      found (stringValue (getObjectItem (getObjectItem jkey (text "MqttInfo")) (text "Url"))) +
        found (intValue (getObjectItem (getObjectItem jkey (text "MqttInfo")) (text "Port"))) +
        found (boolValue (getObjectItem (getObjectItem jkey (text "MqttInfo")) (text "IsLive")))
    else 0

/-- Eight members are counted exactly when all are there. -/
theorem status_eq_eight_iff (jkey : CJson) : status jkey = 8 ↔ Complete jkey := by
  have hproduct := found_le_one (stringValue (getObjectItem jkey (text "Product")))
  have hproductSn := found_le_one (stringValue (getObjectItem jkey (text "ProductSn")))
  have hproductKey := found_le_one (stringValue (getObjectItem jkey (text "ProductKey")))
  have hdeviceName := found_le_one (stringValue (getObjectItem jkey (text "DeviceName")))
  have hdeviceSecret := found_le_one (stringValue (getObjectItem jkey (text "DeviceSecret")))
  have hurl := found_le_one
    (stringValue (getObjectItem (getObjectItem jkey (text "MqttInfo")) (text "Url")))
  have hport := found_le_one
    (intValue (getObjectItem (getObjectItem jkey (text "MqttInfo")) (text "Port")))
  have hisLive := found_le_one
    (boolValue (getObjectItem (getObjectItem jkey (text "MqttInfo")) (text "IsLive")))
  rw [status]
  constructor
  · intro h
    by_cases hmqtt : isObject (getObjectItem jkey (text "MqttInfo")) = true
    · rw [if_pos hmqtt] at h
      refine ⟨?_, ?_, ?_, ?_, ?_, hmqtt, ?_, ?_, ?_⟩ <;> rw [← found_eq_one_iff] <;> omega
    · rw [if_neg hmqtt] at h
      omega
  · intro h
    rw [if_pos h.mqttInfo, found_eq_one_iff.2 h.product, found_eq_one_iff.2 h.productSn,
      found_eq_one_iff.2 h.productKey, found_eq_one_iff.2 h.deviceName,
      found_eq_one_iff.2 h.deviceSecret, found_eq_one_iff.2 h.url, found_eq_one_iff.2 h.port,
      found_eq_one_iff.2 h.isLive]
    rfl

/-! ### The whole call -/

/-- The record with all fields but the addresses behind their copies. -/
def filledKey (jkey : CJson) (m : Mkey) (addr : Vector (CharArray 16) 10) : Mkey where
  product := filled (stringValue (getObjectItem jkey (text "Product"))) m.product
  productSn := filled (stringValue (getObjectItem jkey (text "ProductSn"))) m.productSn
  productKey := filled (stringValue (getObjectItem jkey (text "ProductKey"))) m.productKey
  deviceName := filled (stringValue (getObjectItem jkey (text "DeviceName"))) m.deviceName
  deviceSecret := filled (stringValue (getObjectItem jkey (text "DeviceSecret"))) m.deviceSecret
  mqttInfo :=
    if isObject (getObjectItem jkey (text "MqttInfo")) then
      filledMqtt (getObjectItem jkey (text "MqttInfo")) m.mqttInfo
    else m.mqttInfo
  addr := addr

/-- The test at the end. -/
theorem verdict_eq {n : Int} (hn : n = status jkey) (filledRecord : Mkey) :
    (if n ≠ 8 then some (Mkey.zero, 0) else some (filledRecord, n)) =
      some (if status jkey = 8 then (filledRecord, 8) else (Mkey.zero, (0 : Int))) := by
  rw [hn]
  by_cases h : status jkey = 8
  · rw [if_neg (not_not.2 h), if_pos h, h]
  · rw [if_pos h, if_neg h]

/-- A call on a text that is parsed. -/
theorem unmarshalMkey_eq (hparse : parse mstr = some jkey) (m : Mkey) :
    unmarshalMkey parse mstr m =
      (copyAddr (testedItem jkey) 0 m.addr (visitedItems jkey)).map fun addr =>
        if status jkey = 8 then (filledKey jkey m addr, 8) else (Mkey.zero, 0) := by
  simp only [unmarshalMkey, hparse, copyString_eq, unmarshalMqtt_eq]
  by_cases hmqtt : isObject (getObjectItem jkey (text "MqttInfo")) = true
  · simp only [testedItem, filledKey, if_pos hmqtt]
    cases hitems : arrayItems (getObjectItem jkey (text "Address")) with
    | none =>
      rw [visitedItems, hitems]
      exact verdict_eq (by rw [status, if_pos hmqtt]; omega) _
    | some items =>
      simp only [visitedItems, hitems]
      cases copyAddr (getObjectItem (getObjectItem jkey (text "MqttInfo")) (text "Url")) 0 m.addr
        (items.take (toInt32 items.length).toNat) with
      | none => rfl
      | some addr => exact verdict_eq (by rw [status, if_pos hmqtt]; omega) _
  · simp only [testedItem, filledKey, if_neg hmqtt]
    cases hitems : arrayItems (getObjectItem jkey (text "Address")) with
    | none =>
      rw [visitedItems, hitems]
      exact verdict_eq (by rw [status, if_neg hmqtt]; omega) _
    | some items =>
      simp only [visitedItems, hitems]
      cases copyAddr (getObjectItem jkey (text "DeviceSecret")) 0 m.addr
        (items.take (toInt32 items.length).toNat) with
      | none => rfl
      | some addr => exact verdict_eq (by rw [status, if_neg hmqtt]; omega) _

/-! ### The addresses -/

/-- Without a string in `strkey` nothing is copied. -/
theorem copyAddr_untested {strkey : Option CJson} (hkey : stringValue strkey = none)
    (items : List CJson) : ∀ (i : Nat) (addr : Vector (CharArray 16) 10),
      copyAddr strkey i addr items = some addr := by
  induction items with
  | nil => exact fun _ _ => rfl
  | cons item items ih =>
    intro i addr
    rw [copyAddr, hkey]
    exact ih (i + 1) addr

/-- With a string in `strkey`, the copies are in bounds exactly when the items are strings and not
more than there are rows. -/
theorem copyAddr_ne_none_iff {strkey : Option CJson} {s₀ : Bytes}
    (hkey : stringValue strkey = some s₀) (items : List CJson) :
    ∀ (i : Nat) (addr : Vector (CharArray 16) 10), i ≤ 10 →
      ((∃ addr', copyAddr strkey i addr items = some addr') ↔
        (∀ item ∈ items, (stringValue (some item)).isSome) ∧ i + items.length ≤ 10) := by
  induction items with
  | nil =>
    intro i addr hi
    exact iff_of_true ⟨addr, rfl⟩ ⟨fun item h => absurd h List.not_mem_nil, hi⟩
  | cons item items ih =>
    intro i addr hi
    rw [copyAddr, hkey]
    dsimp only
    cases hs : stringValue (some item) with
    | none =>
      refine iff_of_false ?_ ?_
      · intro h
        obtain ⟨addr', h⟩ := h
        cases h
      · intro h
        have hitem := h.1 item List.mem_cons_self
        rw [hs] at hitem
        cases hitem
    | some s =>
      simp only [Option.bind_eq_bind, Option.bind_some, List.length_cons, List.forall_mem_cons, hs,
        Option.isSome_some, true_and]
      by_cases hrow : i < 10
      · rw [dif_pos hrow, ih (i + 1) _ hrow, Nat.add_right_comm, Nat.add_assoc i]
      · rw [dif_neg hrow]
        refine iff_of_false ?_ ?_
        · intro h
          obtain ⟨addr', h⟩ := h
          cases h
        · omega

/-! ### All or nothing -/

/-- The address member, if it is an array, has at most 10 elements, and all are strings. -/
def AddressStrings (jkey : CJson) : Prop :=
  ∀ items, arrayItems (getObjectItem jkey (text "Address")) = some items →
    items.length ≤ 10 ∧ ∀ item ∈ items, (stringValue (some item)).isSome

theorem AddressStrings.visited (h : AddressStrings jkey) :
    (∀ item ∈ visitedItems jkey, (stringValue (some item)).isSome) ∧
      (visitedItems jkey).length ≤ 10 := by
  rw [visitedItems]
  cases hitems : arrayItems (getObjectItem jkey (text "Address")) with
  | none => exact ⟨fun item hitem => absurd hitem List.not_mem_nil, Nat.zero_le 10⟩
  | some items =>
    obtain ⟨hlen, hstrings⟩ := h items hitems
    exact ⟨fun item hitem => hstrings item (List.mem_of_mem_take hitem),
      Nat.le_trans (List.length_take_le' _ _) hlen⟩

/-- The copies of the addresses are in bounds exactly when they are not made, or of at most 10
items, which are strings. -/
theorem exists_copyAddr_iff (jkey : CJson) (addr : Vector (CharArray 16) 10) :
    (∃ addr', copyAddr (testedItem jkey) 0 addr (visitedItems jkey) = some addr') ↔
      ((stringValue (testedItem jkey)).isSome →
        (∀ item ∈ visitedItems jkey, (stringValue (some item)).isSome) ∧
          (visitedItems jkey).length ≤ 10) := by
  cases hkey : stringValue (testedItem jkey) with
  | none => exact iff_of_true ⟨addr, copyAddr_untested hkey _ 0 addr⟩ nofun
  | some s =>
    rw [copyAddr_ne_none_iff hkey _ 0 addr (Nat.zero_le 10), Nat.zero_add]
    exact ⟨fun h _ => h, fun h => h rfl⟩

/-- The record behind a call that found all fields: every field is copied, and the addresses as far
as they go. -/
def Copied (jkey : CJson) (m m' : Mkey) : Prop :=
  ∃ addr, copyAddr (testedItem jkey) 0 m.addr (visitedItems jkey) = some addr ∧
    m' = filledKey jkey m addr

/-- The result of a call whose addresses can be copied. -/
theorem unmarshalMkey_result (hparse : parse mstr = some jkey) (haddr : AddressStrings jkey)
    (m : Mkey) : ∃ m' n, unmarshalMkey parse mstr m = some (m', n) ∧
      (Complete jkey ∧ n = 8 ∧ Copied jkey m m' ∨
        ¬ Complete jkey ∧ n = 0 ∧ m' = Mkey.zero) := by
  obtain ⟨addr, hcopy⟩ := (exists_copyAddr_iff jkey m.addr).2 fun _ => haddr.visited
  rw [unmarshalMkey_eq hparse, hcopy, Option.map_some]
  by_cases h : status jkey = 8
  · rw [if_pos h]
    exact ⟨_, _, rfl, Or.inl ⟨(status_eq_eight_iff jkey).1 h, rfl, addr, hcopy, rfl⟩⟩
  · rw [if_neg h]
    exact ⟨_, _, rfl, Or.inr ⟨mt (status_eq_eight_iff jkey).2 h, rfl, rfl⟩⟩

/-- The same members, but for the address. -/
def SameButAddress (jkey jkey' : CJson) : Prop :=
  ∀ name, name ≠ text "Address" → getObjectItem jkey' name = getObjectItem jkey name

theorem SameButAddress.complete_iff {jkey' : CJson} (h : SameButAddress jkey jkey') :
    Complete jkey' ↔ Complete jkey := by
  rw [← status_eq_eight_iff, ← status_eq_eight_iff, status, status, h _ (by decide),
    h _ (by decide), h _ (by decide), h _ (by decide), h _ (by decide), h _ (by decide)]

/-- What a call does with a text. -/
structure AllOrNothing (parse : Bytes → Option CJson) (mstr : Bytes) (m : Mkey) : Prop where
  /-- A text that does not parse leaves the record as it is. -/
  unparsed : parse mstr = none → unmarshalMkey parse mstr m = some (m, 0)
  /-- The result is 8 with a filled record when all members are there, and otherwise 0 with a
  cleared one. -/
  parsed : ∀ jkey, parse mstr = some jkey → ∃ m' n, unmarshalMkey parse mstr m = some (m', n) ∧
    (Complete jkey ∧ n = 8 ∧ Copied jkey m m' ∨ ¬ Complete jkey ∧ n = 0 ∧ m' = Mkey.zero)
  /-- A text that differs in the address only has the same result. -/
  address : ∀ jkey mstr' jkey' m', parse mstr = some jkey → parse mstr' = some jkey' →
    SameButAddress jkey jkey' → AddressStrings jkey' →
    (unmarshalMkey parse mstr' m').map Prod.snd = (unmarshalMkey parse mstr m).map Prod.snd

theorem unmarshalMkey_allOrNothing (parse : Bytes → Option CJson) (mstr : Bytes) (m : Mkey)
    (haddr : ∀ jkey, parse mstr = some jkey → AddressStrings jkey) :
    AllOrNothing parse mstr m := by
  refine ⟨?_, ?_, ?_⟩
  · intro hnone
    rw [unmarshalMkey, hnone]
  · intro jkey hparse
    exact unmarshalMkey_result hparse (haddr jkey hparse) m
  · intro jkey mstr' jkey' m' hparse hparse' hsame haddr'
    obtain ⟨r, n, hrun, hn⟩ := unmarshalMkey_result hparse (haddr jkey hparse) m
    obtain ⟨r', n', hrun', hn'⟩ := unmarshalMkey_result hparse' haddr' m'
    rw [hsame.complete_iff] at hn'
    rw [hrun, hrun', Option.map_some, Option.map_some, Option.some_inj]
    rcases hn with ⟨hcomplete, hn, -⟩ | ⟨hcomplete, hn, -⟩
    · rcases hn' with ⟨-, hn', -⟩ | ⟨hnot, -⟩
      · rw [hn, hn']
      · exact absurd hcomplete hnot
    · rcases hn' with ⟨hyes, -⟩ | ⟨-, hn', -⟩
      · exact absurd hyes hcomplete
      · rw [hn, hn']

/-- The device of the sample program. -/
theorem unmarshalMkey_allOrNothing_boxBox :
    AllOrNothing (fun _ => some (mkeyTree boxBox)) boxBoxText Mkey.zero := by
  refine unmarshalMkey_allOrNothing _ _ _ ?_
  intro jkey hjkey items hitems
  rw [← Option.some.inj hjkey] at hitems
  have haddresses : items = (addresses boxBox).map .string := (Option.some.inj hitems).symm
  rw [haddresses]
  exact ⟨by decide, fun item hitem => by
    obtain ⟨s, -, rfl⟩ := List.mem_map.1 hitem
    rfl⟩

end DeviceKey
end CFunction
