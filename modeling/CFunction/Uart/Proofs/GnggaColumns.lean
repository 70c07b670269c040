import CFunction.Uart.Proofs.GnrmcColumns

/-!
# The columns of a GNGGA sentence

`parse_gngga` counts five commas and then scans from column to column. Behind the `k`-th comma of
a body stand its items from the next one on, empty or not, so that each block meets its own item.
-/

namespace CFunction
namespace Gps

open CString Fields

/-- `atoi` reads no further than a comma. -/
def AtoiStops (fl : FloatOps) : Prop :=
  ∀ f t, comma ∉ f → fl.atoi (f ++ comma :: t) = fl.atoi f

/-- The body of a sentence, as a list of its items. -/
structure GnggaBody where
  items : List Bytes
  free : ∀ f ∈ items, comma ∉ f ∧ 0 ∉ f
  ten_le : 10 ≤ items.length

namespace GnggaBody

variable (body : GnggaBody) (fl : FloatOps)

/-- Item <k>. -/
def item (k : Nat) : Bytes := body.items.getD (k - 1) []

def bytes : Bytes := join comma body.items

/-- The members that a body sets: none if item <6> starts with a `0`, and otherwise those whose
items are not empty. -/
def update : GnggaUpdate :=
  if (body.item 6).head? = some (ascii '0') then .none
  else
    { satellite := if body.item 7 = [] then none else some (fl.atoi (body.item 7))
      height := if body.item 9 = [] then none else some (fl.narrow (fl.atof (body.item 9))) }

theorem free_item (k : Nat) : comma ∉ body.item k ∧ 0 ∉ body.item k := by
  rw [item, List.getD_eq_getElem?_getD]
  cases h : body.items[k - 1]? with
  | none => exact ⟨List.not_mem_nil, List.not_mem_nil⟩
  | some f => exact body.free f (List.mem_of_getElem? h)

/-- What stands behind the `k`-th comma. -/
def behind (k : Nat) (rest : Bytes) : Bytes := join comma (body.items.drop k) ++ 0 :: rest

theorem zero_mem_behind (k : Nat) (rest : Bytes) : 0 ∈ body.behind k rest :=
  List.mem_append_right _ List.mem_cons_self

theorem behind_eq {k : Nat} (hk : k < 9) (rest : Bytes) :
    body.behind k rest = body.item (k + 1) ++ comma :: body.behind (k + 1) rest := by
  have hlen := body.ten_le
  rw [behind, join_drop (by omega), List.append_assoc]
  rfl

theorem after_behind {k : Nat} (hk : k < 9) (rest : Bytes) :
    after comma (body.behind k rest) = some (body.behind (k + 1) rest) := by
  rw [behind_eq body hk]
  exact after_append (body.free_item (k + 1)).1 _

/-- A block behind the `k`-th comma meets item <k+1>. -/
theorem number_behind {α : Type} {convert : Bytes → α} {k : Nat} (hk : k < 9) (rest : Bytes)
    (stops : ∀ f t, comma ∉ f → convert (f ++ comma :: t) = convert f) :
    column (body.behind k rest) (fun t => (stringOf t).map convert) =
      some (if body.item (k + 1) = [] then none else some (convert (body.item (k + 1)))) := by
  have hfree := body.free_item (k + 1)
  rw [behind_eq body hk]
  exact number_item hfree (body.zero_mem_behind _ rest) fun u => stops _ u hfree.1

theorem gnggaColumns_behind (atoi : AtoiStops fl) (atof : AtofStops fl) (rest : Bytes) :
    gnggaColumns fl (body.behind 5 rest) = some
      { satellite := if body.item 7 = [] then none else some (fl.atoi (body.item 7))
        height :=
          if body.item 9 = [] then none else some (fl.narrow (fl.atof (body.item 9))) } := by
  have hnarrow : ∀ f t, comma ∉ f → fl.narrow (fl.atof (f ++ comma :: t)) = fl.narrow (fl.atof f) :=
    fun f t hf => congrArg fl.narrow (atof f t hf)
  refine Option.bind_eq_some_iff.2 ⟨_, body.after_behind (by decide) rest, ?_⟩
  refine Option.bind_eq_some_iff.2 ⟨_, body.number_behind (by decide) rest atoi, ?_⟩
  refine Option.bind_eq_some_iff.2 ⟨_, body.after_behind (by decide) rest, ?_⟩
  refine Option.bind_eq_some_iff.2 ⟨_, body.after_behind (by decide) rest, ?_⟩
  exact Option.bind_eq_some_iff.2 ⟨_, body.number_behind (by decide) rest hnarrow, rfl⟩

/-- What stands behind the fifth comma begins with item <6>, or with the next comma. -/
theorem head_behind (rest : Bytes) :
    ∃ c, (body.behind 5 rest).head? = some c ∧
      (c = ascii '0' ↔ (body.item 6).head? = some (ascii '0')) := by
  rw [behind_eq body (by decide)]
  cases body.item 6 with
  | nil => exact ⟨comma, rfl, by decide⟩
  | cons c f => exact ⟨c, rfl, by rw [List.head?_cons, Option.some.injEq]⟩

theorem gnggaUpdate_bytes (atoi : AtoiStops fl) (atof : AtofStops fl) (rest : Bytes) :
    gnggaUpdate fl (body.bytes ++ 0 :: rest) = some (body.update fl) := by
  have hlen := body.ten_le
  have hfive : afterN comma 5 (body.bytes ++ 0 :: rest) = some (body.behind 5 rest) :=
    afterN_join 5 body.items (fun f hf => (body.free f hf).1) (by omega) _
  obtain ⟨c, hhead, hc⟩ := body.head_behind rest
  refine Option.bind_eq_some_iff.2 ⟨_, hfive, Option.bind_eq_some_iff.2 ⟨c, hhead, ?_⟩⟩
  rw [update]
  by_cases hzero : (body.item 6).head? = some (ascii '0')
  · rw [if_pos (hc.2 hzero), if_pos hzero]
  · rw [if_neg (fun h => hzero (hc.1 h)), if_neg hzero]
    exact gnggaColumns_behind body fl atoi atof rest

end GnggaBody

/-- A body without a fix leaves the record alone; another one sets `satellite` and `height` from
items <7> and <9>, unless these are empty, and no other member. -/
theorem parseGngga_body {fl : FloatOps} (atoi : AtoiStops fl) (atof : AtofStops fl)
    (body : GnggaBody) (gps : GpsInfo) (rest : Bytes) :
    parseGngga fl gps (body.bytes ++ 0 :: rest) =
      some (if (body.item 6).head? = some (ascii '0') then gps
        else { gps with
          satellite := if body.item 7 = [] then gps.satellite else fl.atoi (body.item 7)
          height := if body.item 9 = [] then gps.height
            else fl.narrow (fl.atof (body.item 9)) }) := by
  rw [parseGngga_eq, body.gnggaUpdate_bytes fl atoi atof, Option.map_some, GnggaUpdate.apply,
    GnggaBody.update]
  by_cases hzero : (body.item 6).head? = some (ascii '0')
  · rw [if_pos hzero, if_pos hzero]
    rfl
  · rw [if_neg hzero, if_neg hzero]
    simp only [getD_ite]

/-! ### The sentence of `main` -/

/-- The conversions that the sentence of `main` needs (`read_gps.c:747`): `atoi` of digits, and
`53.1` as a `double` and as a `float`. -/
def sampleOps : FloatOps :=
  { (default : FloatOps) with
    atoi := fun s => (s.takeWhile fun c => ascii '0' ≤ c ∧ c ≤ ascii '9').foldl
      (fun n c => 10 * n + (c.toNat - 48)) 0
    atof := fun s => if s.takeWhile (· ≠ comma) = text "53.1" then 0x404A8CCCCCCCCCCD else 0
    narrow := fun d => if d = 0x404A8CCCCCCCCCCD then 0x42546666 else 0 }

/-- A scan that does not pass a comma. -/
theorem takeWhile_comma {p : UInt8 → Bool} (hp : p comma = false) (f t : Bytes) :
    (f ++ comma :: t).takeWhile p = f.takeWhile p := by
  induction f with
  | nil => rw [List.nil_append, List.takeWhile_cons, hp]; rfl
  | cons c f ih =>
    rw [List.cons_append, List.takeWhile_cons, List.takeWhile_cons, ih]

theorem sampleOps_atoi : AtoiStops sampleOps := by
  intro f t _
  simp only [sampleOps]
  rw [takeWhile_comma (by decide)]

theorem sampleOps_atof : AtofStops sampleOps := by
  intro f t _
  simp only [sampleOps]
  rw [takeWhile_comma (by decide)]

def sampleBody : GnggaBody where
  items := [text "092927.000", text "2235.9058", text "N", text "11400.0518", text "E", text "2",
    text "9", text "1.03", text "53.1", text "M", text "-2.4", text "M", text "0.0", text "0"]
  free := by decide
  ten_le := by decide

theorem parseGngga_body_sample :
    parseGngga sampleOps GpsInfo.zero
        (text "092927.000,2235.9058,N,11400.0518,E,2,9,1.03,53.1,M,-2.4,M,0.0,0" ++ [0]) =
      some { GpsInfo.zero with satellite := 9, height := 0x42546666 } := by
  have hrun := parseGngga_body sampleOps_atoi sampleOps_atof sampleBody GpsInfo.zero []
  have hbytes : sampleBody.bytes =
      text "092927.000,2235.9058,N,11400.0518,E,2,9,1.03,53.1,M,-2.4,M,0.0,0" := by decide
  rw [hbytes] at hrun
  exact hrun

end Gps
end CFunction
