import CFunction.Json.Proofs.MkeyCalls

/-!
# What `unmarshal_mkey` does to memory

The test in front of each copy is about the string that is copied, except in the loop over the
addresses. A string that fills its array is copied without a NUL.
-/

namespace CFunction
namespace DeviceKey

open CString CJson

variable {parse : Bytes → Option CJson} {mstr : Bytes} {jkey : CJson} {m : Mkey}

/-- The call copies only strings, to rows that exist, and a record that it accepts has a NUL in each
array. -/
def SafeCall (parse : Bytes → Option CJson) (mstr : Bytes) (m : Mkey) : Prop :=
  ∃ m' n, unmarshalMkey parse mstr m = some (m', n) ∧ (n = 8 → Terminated m')

/-- The string of the item, if it has one, leaves room for a NUL in a `char[n]`. -/
def Shorter (n : Nat) (item : Option CJson) : Prop :=
  ∀ s, stringValue item = some s → (cstr s).length < n

/-- The strings of a complete document, and the rows that it does not write. -/
structure Fits (jkey : CJson) (m : Mkey) : Prop where
  product : Shorter 20 (getObjectItem jkey (text "Product"))
  productSn : Shorter 20 (getObjectItem jkey (text "ProductSn"))
  productKey : Shorter 20 (getObjectItem jkey (text "ProductKey"))
  deviceName : Shorter 20 (getObjectItem jkey (text "DeviceName"))
  deviceSecret : Shorter 64 (getObjectItem jkey (text "DeviceSecret"))
  url : Shorter 32 (getObjectItem (getObjectItem jkey (text "MqttInfo")) (text "Url"))
  addresses : ∀ s ∈ itemStrings (visitedItems jkey), (cstr s).length < 16
  otherRows : ∀ row ∈ m.addr.toList.drop (visitedItems jkey).length, 0 ∈ row.bytes

/-- The documents that are safe for the record `m`. -/
structure SafeDocument (jkey : CJson) (m : Mkey) : Prop where
  /-- With a string in the item that the loop tests, the addresses are strings and at most 10. -/
  addresses : (stringValue (testedItem jkey)).isSome →
    (∀ item ∈ visitedItems jkey, (stringValue (some item)).isSome) ∧
      (visitedItems jkey).length ≤ 10
  fits : Complete jkey → Fits jkey m

/-- A field that is found is terminated exactly when its string is shorter than the array. -/
theorem zero_mem_filled_iff {n : Nat} {item : Option CJson} (h : (stringValue item).isSome)
    (a : CharArray n) : 0 ∈ (filled (stringValue item) a).bytes ↔ Shorter n item := by
  obtain ⟨s, hs⟩ := Option.isSome_iff_exists.1 h
  rw [Shorter, hs]
  constructor
  · intro hmem t ht
    rw [← Option.some.inj ht]
    exact (a.zero_mem_strncpy_iff s).1 hmem
  · exact fun hshort => (a.zero_mem_strncpy_iff s).2 (hshort s rfl)

/-- The rows behind the copies of the addresses. -/
theorem rows_terminated_iff {addr addr' : Vector (CharArray 16) 10} {items : List CJson}
    (hrows : addr'.toList =
      (itemStrings items).map (CharArray.zero 16).strncpy ++ addr.toList.drop items.length) :
    (∀ row ∈ addr', 0 ∈ row.bytes) ↔ (∀ s ∈ itemStrings items, (cstr s).length < 16) ∧
      ∀ row ∈ addr.toList.drop items.length, 0 ∈ row.bytes := by
  have hmem : (∀ row ∈ addr', 0 ∈ row.bytes) ↔ ∀ row ∈ addr'.toList, 0 ∈ row.bytes := by
    simp only [Vector.mem_toList_iff]
  rw [hmem, hrows, List.forall_mem_append, List.forall_mem_map]
  simp only [CharArray.zero_mem_strncpy_iff]

/-- A complete document leaves a terminated record exactly when it fits. -/
theorem terminated_filledKey_iff (h : Complete jkey) {addr : Vector (CharArray 16) 10}
    (hrows : addr.toList = (itemStrings (visitedItems jkey)).map (CharArray.zero 16).strncpy ++
      m.addr.toList.drop (visitedItems jkey).length) :
    Terminated (filledKey jkey m addr) ↔ Fits jkey m := by
  have hport : InInt (filledKey jkey m addr).mqttInfo.port := by
    obtain ⟨n, hn⟩ := Option.isSome_iff_exists.1 h.port
    rw [filledKey, if_pos h.mqttInfo, filledMqtt, hn]
    exact toInt32_inInt n
  have hurl : 0 ∈ (filledKey jkey m addr).mqttInfo.url.bytes ↔
      Shorter 32 (getObjectItem (getObjectItem jkey (text "MqttInfo")) (text "Url")) := by
    rw [filledKey, if_pos h.mqttInfo, filledMqtt]
    exact zero_mem_filled_iff h.url _
  constructor
  · intro ht
    obtain ⟨haddresses, hother⟩ := (rows_terminated_iff hrows).1 ht.addr
    exact ⟨(zero_mem_filled_iff h.product _).1 ht.product,
      (zero_mem_filled_iff h.productSn _).1 ht.productSn,
      (zero_mem_filled_iff h.productKey _).1 ht.productKey,
      (zero_mem_filled_iff h.deviceName _).1 ht.deviceName,
      (zero_mem_filled_iff h.deviceSecret _).1 ht.deviceSecret, hurl.1 ht.url, haddresses, hother⟩
  · intro hf
    exact ⟨(zero_mem_filled_iff h.product _).2 hf.product,
      (zero_mem_filled_iff h.productSn _).2 hf.productSn,
      (zero_mem_filled_iff h.productKey _).2 hf.productKey,
      (zero_mem_filled_iff h.deviceName _).2 hf.deviceName,
      (zero_mem_filled_iff h.deviceSecret _).2 hf.deviceSecret, hurl.2 hf.url, hport,
      (rows_terminated_iff hrows).2 ⟨hf.addresses, hf.otherRows⟩⟩

/-- With all members there, the loop tests the string of `Url`. -/
theorem Complete.testedItem (h : Complete jkey) : (stringValue (testedItem jkey)).isSome := by
  rw [DeviceKey.testedItem, if_pos h.mqttInfo]
  exact h.url

/-- So the addresses of such a document are in the first rows. -/
theorem Complete.rows (h : Complete jkey) {addr : Vector (CharArray 16) 10}
    (hcopy : copyAddr (DeviceKey.testedItem jkey) 0 m.addr (visitedItems jkey) = some addr) :
    addr.toList = (itemStrings (visitedItems jkey)).map (CharArray.zero 16).strncpy ++
      m.addr.toList.drop (visitedItems jkey).length := by
  obtain ⟨s, hs⟩ := Option.isSome_iff_exists.1 h.testedItem
  obtain ⟨hstrings, hlen⟩ := (exists_copyAddr_iff jkey m.addr).1 ⟨addr, hcopy⟩ h.testedItem
  obtain ⟨addr', hcopy', hrows⟩ := copyAddr_rows hs (visitedItems jkey) 0 m.addr hstrings
    (by rwa [Nat.zero_add])
  rw [Option.some.inj (hcopy'.symm.trans hcopy), Nat.zero_add, List.take_zero,
    List.nil_append] at hrows
  exact hrows

/-- A call is safe exactly when the text does not parse, or is a safe document. -/
theorem unmarshalMkey_safe_iff (parse : Bytes → Option CJson) (mstr : Bytes) (m : Mkey) :
    SafeCall parse mstr m ↔ ∀ jkey, parse mstr = some jkey → SafeDocument jkey m := by
  cases hparse : parse mstr with
  | none =>
    refine iff_of_true ⟨m, 0, by rw [unmarshalMkey, hparse], fun h => ?_⟩ nofun
    exact absurd h (by decide)
  | some jkey =>
    rw [SafeCall, unmarshalMkey_eq hparse]
    constructor
    · intro h jkey' hjkey
      obtain ⟨m', n, hrun, hterminated⟩ := h
      rw [← Option.some.inj hjkey]
      obtain ⟨addr, hcopy, hresult⟩ := Option.map_eq_some_iff.1 hrun
      refine ⟨(exists_copyAddr_iff jkey m.addr).1 ⟨addr, hcopy⟩, fun hcomplete => ?_⟩
      rw [if_pos ((status_eq_eight_iff jkey).2 hcomplete)] at hresult
      obtain ⟨rfl, rfl⟩ := Prod.mk.inj hresult
      exact (terminated_filledKey_iff hcomplete (hcomplete.rows hcopy)).1 (hterminated rfl)
    · intro h
      obtain ⟨haddresses, hfits⟩ := h jkey rfl
      obtain ⟨addr, hcopy⟩ := (exists_copyAddr_iff jkey m.addr).2 haddresses
      rw [hcopy, Option.map_some]
      by_cases hstatus : status jkey = 8
      · have hcomplete := (status_eq_eight_iff jkey).1 hstatus
        rw [if_pos hstatus]
        exact ⟨_, _, rfl, fun _ =>
          (terminated_filledKey_iff hcomplete (hcomplete.rows hcopy)).2 (hfits hcomplete)⟩
      · rw [if_neg hstatus]
        exact ⟨_, _, rfl, fun h => absurd h (by decide)⟩

/-- A number among the addresses of a document whose secret is a string, and its text. -/
def numberAddress : CJson :=
  .object [(text "DeviceSecret", .string (text "s")), (text "Address", .array [.int 1])]

def numberAddressText : Bytes := text "\x7b\"DeviceSecret\":\"s\",\"Address\":[1]\x7d"

theorem number_is_copied : ¬ ∀ parse mstr m, SafeCall parse mstr m := by
  intro h
  obtain ⟨m', n, hrun, -⟩ := h
    (fun mstr => if mstr = numberAddressText then some numberAddress else none)
    numberAddressText Mkey.zero
  rw [unmarshalMkey_eq (if_pos rfl)] at hrun
  obtain ⟨addr, hcopy, -⟩ := Option.map_eq_some_iff.1 hrun
  have hitems := ((exists_copyAddr_iff numberAddress Mkey.zero.addr).1 ⟨addr, hcopy⟩ rfl).1
  exact absurd (hitems (.int 1) List.mem_cons_self) Bool.false_ne_true

end DeviceKey
end CFunction
