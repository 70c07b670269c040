import CFunction.Uart.GpsInfo
import CFunction.Misc.Fields

/-!
# The sentence parsers by columns

An index into a buffer stands for what is left of the buffer there, its column: reading a byte is
reading the head, scanning for a comma is `Fields.after`, and a block is executed unless the
column is empty. What a parser sets then does not depend on `mgps`, so that a run is an update.
-/

namespace CFunction
namespace Gps

open CString Fields

variable {buf t : Bytes}

instance : Inhabited FloatOps :=
  ⟨⟨fun _ => 0, fun _ => 0, fun _ => 0, id, id, fun d _ => d, fun _ => 0⟩⟩

/-- The index of the column `t` of `buf`. -/
def idx (buf t : Bytes) : Int := ((buf.length - t.length : Nat) : Int)

/-- The string at a column. -/
def stringOf (t : Bytes) : Option Bytes := if 0 ∈ t then some (cstr t) else none

/-- What a block sets that is executed unless the column is empty. -/
def column {α : Type} (t : Bytes) (f : Bytes → Option α) : Option (Option α) :=
  match t with
  | [] => none
  | c :: t => if c = comma then some none else (f (c :: t)).map some

theorem drop_idx (ht : t <:+ buf) : buf.drop (buf.length - t.length) = t :=
  (List.suffix_iff_eq_drop.1 ht).symm

theorem load_idx (ht : t <:+ buf) : load buf (idx buf t) = t.head? := by
  rw [idx, load_nat, ← List.head?_drop, drop_idx ht]

theorem cstrAt_idx (ht : t <:+ buf) : cstrAt buf (idx buf t) = stringOf t := by
  rw [cstrAt, stringOf, idx, Int.toNat_natCast, drop_idx ht]
  simp

theorem idx_cons {c : UInt8} (ht : c :: t <:+ buf) : idx buf (c :: t) + 1 = idx buf t := by
  have hlen := ht.length_le
  rw [List.length_cons] at hlen
  rw [idx, idx, List.length_cons]
  omega

theorem idx_self (buf : Bytes) : idx buf buf = 0 := by
  rw [idx, Nat.sub_self]
  rfl

theorem idx_drop {n : Nat} (hn : n ≤ buf.length) : idx buf (buf.drop n) = n := by
  rw [idx, List.length_drop]
  congr 1
  omega

/-- The scan for a comma, by induction on what is left of the buffer. -/
theorem skipComma_idx : ∀ (t : Bytes) (fuel : Nat), t <:+ buf → t.length ≤ fuel →
    skipComma buf fuel (idx buf t) = (after comma t).map (idx buf) := by
  intro t
  induction t with
  | nil =>
    intro fuel ht _
    cases fuel with
    | zero => rfl
    | succ fuel => rw [skipComma, load_idx ht]; rfl
  | cons c t ih =>
    intro fuel ht hfuel
    cases fuel with
    | zero => exact absurd hfuel (by simp)
    | succ fuel =>
      have ht' : t <:+ buf := (List.suffix_cons c t).trans ht
      rw [skipComma, load_idx ht, List.head?_cons, Option.bind_eq_bind, Option.bind_some,
        idx_cons ht, after]
      by_cases hc : c = comma
      · rw [if_neg (not_not.2 hc), if_pos hc]
        rfl
      · rw [if_pos hc, if_neg hc]
        exact ih fuel ht' (Nat.le_of_succ_le_succ hfuel)

theorem skipComma_eq (ht : t <:+ buf) :
    skipComma buf buf.length (idx buf t) = (after comma t).map (idx buf) :=
  skipComma_idx t buf.length ht ht.length_le

/-- A block that sets a member of `gps` to what it finds in the column. -/
theorem ifFilled_eq {α : Type} {gps : GpsInfo} {block : UInt8 → Option GpsInfo}
    {f : Bytes → Option α} (set : Option α → GpsInfo) (ht : t <:+ buf) (unset : set none = gps)
    (sets : ∀ c t', t = c :: t' → block c = (f t).map fun v => set (some v)) :
    ifFilled buf (idx buf t) gps block = (column t f).map set := by
  rw [ifFilled, load_idx ht]
  cases t with
  | nil => rfl
  | cons c t =>
    rw [List.head?_cons, Option.bind_eq_bind, Option.bind_some, column]
    by_cases hc : c = comma
    · rw [if_neg (not_not.2 hc), if_pos hc, ← unset]
      rfl
    · rw [if_pos hc, if_neg hc, sets c t rfl, Option.map_map]
      rfl

theorem stringOf_eq_some_iff {s : Bytes} : stringOf t = some s ↔ 0 ∈ t ∧ cstr t = s := by
  rw [stringOf]
  split <;> simp [*]

theorem bind_map_congr {α β γ : Type} {o : Option α} {f : α → Option γ} {g : α → Option β}
    {h : β → γ} (hfg : ∀ a, o = some a → f a = (g a).map h) : o.bind f = (o.bind g).map h := by
  rw [Option.map_bind]
  exact Option.bind_congr hfg

theorem bind_of_eq {α β γ : Type} {o : Option β} {c : Option α} {set : α → β}
    (h : o = c.map set) (next : β → Option γ) : o.bind next = c.bind fun v => next (set v) := by
  rw [h, Option.bind_map]
  rfl

/-- The string of a column, converted. -/
theorem number_eq {α : Type} {gps : GpsInfo} {block : Bytes → GpsInfo}
    (set : Option α → GpsInfo) (f : Bytes → α) (ht : t <:+ buf) (unset : set none = gps)
    (sets : ∀ s, block s = set (some (f s))) :
    (ifFilled buf (idx buf t) gps fun _ => do
      let s ← cstrAt buf (idx buf t)
      some (block s)) = (column t fun t => (stringOf t).map f).map set := by
  refine ifFilled_eq set ht unset ?_
  rintro c t' rfl
  rw [cstrAt_idx ht]
  cases stringOf (c :: t') with
  | none => rfl
  | some s => exact congrArg some (sets s)

/-- The first character of a column. -/
theorem char_eq {gps : GpsInfo} {block : UInt8 → GpsInfo} (set : Option UInt8 → GpsInfo)
    (ht : t <:+ buf) (unset : set none = gps) (sets : ∀ c, block c = set (some c)) :
    (ifFilled buf (idx buf t) gps fun c => some (block c)) = (column t List.head?).map set := by
  refine ifFilled_eq set ht unset ?_
  rintro c t' rfl
  exact congrArg some (sets c)

/-- A `strncpy` into a cleared array. -/
theorem copy_eq {gps : GpsInfo} {block : CharArray 16 → GpsInfo}
    {copied : Option (CharArray 16)} (set : Option (CharArray 16) → GpsInfo) (ht : t <:+ buf)
    (unset : set none = gps) (sets : ∀ a, block a = set (some a)) :
    (ifFilled buf (idx buf t) gps fun _ => do
      let a ← copied
      some (block a)) = (column t fun _ => copied).map set := by
  refine ifFilled_eq set ht unset ?_
  rintro c t' rfl
  cases copied with
  | none => rfl
  | some a => exact congrArg some (sets a)

/-- A `strncpy` of the string of a column. -/
theorem copyString_eq {gps : GpsInfo} {block : CharArray 16 → GpsInfo}
    (set : Option (CharArray 16) → GpsInfo) (n : Nat) (ht : t <:+ buf) (unset : set none = gps)
    (sets : ∀ a, block a = set (some a)) :
    (ifFilled buf (idx buf t) gps fun _ => do
      let s ← cstrAt buf (idx buf t)
      let a ← (CharArray.zero 16).copy s n
      some (block a)) =
      (column t fun t => (stringOf t).bind fun s => (CharArray.zero 16).copy s n).map set := by
  refine ifFilled_eq set ht unset ?_
  rintro c t' rfl
  rw [cstrAt_idx ht]
  refine bind_map_congr fun s _ => ?_
  cases (CharArray.zero 16).copy s n with
  | none => rfl
  | some a => exact congrArg some (sets a)

/-! ### `parse_gnrmc` -/

/-- The members that a run of `parse_gnrmc` sets. -/
structure GnrmcUpdate where
  dateDay : Option (CharArray 16)
  latitude : Option (BitVec 64)
  positionSn : Option UInt8
  longitude : Option (BitVec 64)
  positionEw : Option UInt8
  speed : Option (BitVec 32)
  direction : Option (BitVec 32)
  dateYear : Option (CharArray 16)

def GnrmcUpdate.none : GnrmcUpdate := ⟨.none, .none, .none, .none, .none, .none, .none, .none⟩

def GnrmcUpdate.apply (gps : GpsInfo) (u : GnrmcUpdate) : GpsInfo :=
  { gps with
    dateDay := u.dateDay.getD gps.dateDay
    latitude := u.latitude.getD gps.latitude
    positionSn := u.positionSn.getD gps.positionSn
    longitude := u.longitude.getD gps.longitude
    positionEw := u.positionEw.getD gps.positionEw
    speed := u.speed.getD gps.speed
    direction := u.direction.getD gps.direction
    dateYear := u.dateYear.getD gps.dateYear }

/-- The columns from item <3> on. -/
def gnrmcColumns (fl : FloatOps) (dateDay : Option (CharArray 16)) (t : Bytes) :
    Option GnrmcUpdate := do
  let latitude ← column t fun t => (stringOf t).map fl.atof
  let t ← after comma t
  let positionSn ← column t List.head?
  let t ← after comma t
  let longitude ← column t fun t => (stringOf t).map fl.atof
  let t ← after comma t
  let positionEw ← column t List.head?
  let t ← after comma t
  let speed ← column t fun t => (stringOf t).map fun s => fl.narrow (fl.times185 (fl.atof s))
  let t ← after comma t
  let direction ← column t fun t => (stringOf t).map fun s => fl.narrow (fl.atof s)
  let t ← after comma t
  let dateYear ← column t fun t => (stringOf t).bind fun s => (CharArray.zero 16).copy s 6
  some ⟨dateDay, latitude, positionSn, longitude, positionEw, speed, direction, dateYear⟩

/-- `parse_gnrmc` as an update. -/
def gnrmcUpdate (fl : FloatOps) (buf : Bytes) : Option GnrmcUpdate := do
  let s ← stringOf buf
  match strstr [ascii 'A', comma] s with
  | none => some .none
  | some strx => do
    let dateDay ← column buf fun _ => (CharArray.zero 16).copy s (toSize ((strx : Int) - 1))
    gnrmcColumns fl dateDay (buf.drop (strx + 2))

theorem strx_room {s : Bytes} {strx : Nat} (hs : stringOf buf = some s)
    (hx : strstr [ascii 'A', comma] s = some strx) : strx + 2 ≤ buf.length := by
  obtain ⟨-, rfl⟩ := stringOf_eq_some_iff.1 hs
  exact (strstr_room (List.cons_ne_nil _ _) hx).trans (List.takeWhile_prefix _).length_le

theorem parseGnrmc_eq (fl : FloatOps) (gps : GpsInfo) (buf : Bytes) :
    parseGnrmc fl gps buf = (gnrmcUpdate fl buf).map (GnrmcUpdate.apply gps) := by
  have hbuf : buf <:+ buf := List.suffix_rfl
  have hstart : cstrAt buf 0 = stringOf buf := by rw [← cstrAt_idx hbuf, idx_self]
  rw [parseGnrmc, gnrmcUpdate, hstart]
  refine bind_map_congr fun s hs => ?_
  cases hx : strstr [ascii 'A', comma] s with
  | none => rfl
  | some strx =>
    have hroom := strx_room hs hx
    have h3 : buf.drop (strx + 2) <:+ buf := List.drop_suffix _ buf
    have hi : ((strx : Int) + 2) = idx buf (buf.drop (strx + 2)) := (idx_drop hroom).symm
    dsimp only
    rw [hi, ← idx_self buf]
    -- item <1>
    refine (bind_of_eq (copy_eq
      (fun dateDay => GnrmcUpdate.apply gps { GnrmcUpdate.none with dateDay })
      hbuf rfl (fun _ => rfl)) _).trans ?_
    refine bind_map_congr fun dateDay _ => ?_
    rw [gnrmcColumns]
    -- item <3>
    refine (bind_of_eq (number_eq
      (fun latitude => GnrmcUpdate.apply gps { GnrmcUpdate.none with dateDay, latitude })
      fl.atof h3 rfl (fun _ => rfl)) _).trans ?_
    refine bind_map_congr fun latitude _ => ?_
    -- item <4>
    refine (bind_of_eq (skipComma_eq h3) _).trans (bind_map_congr fun t4 ht4 => ?_)
    have h4 := (after_suffix ht4).trans h3
    refine (bind_of_eq (char_eq
      (fun positionSn => GnrmcUpdate.apply gps { GnrmcUpdate.none with
        dateDay, latitude, positionSn })
      h4 rfl (fun _ => rfl)) _).trans (bind_map_congr fun positionSn _ => ?_)
    -- item <5>
    refine (bind_of_eq (skipComma_eq h4) _).trans (bind_map_congr fun t5 ht5 => ?_)
    have h5 := (after_suffix ht5).trans h4
    refine (bind_of_eq (number_eq
      (fun longitude => GnrmcUpdate.apply gps { GnrmcUpdate.none with
        dateDay, latitude, positionSn, longitude })
      fl.atof h5 rfl (fun _ => rfl)) _).trans (bind_map_congr fun longitude _ => ?_)
    -- item <6>
    refine (bind_of_eq (skipComma_eq h5) _).trans (bind_map_congr fun t6 ht6 => ?_)
    have h6 := (after_suffix ht6).trans h5
    refine (bind_of_eq (char_eq
      (fun positionEw => GnrmcUpdate.apply gps { GnrmcUpdate.none with
        dateDay, latitude, positionSn, longitude, positionEw })
      h6 rfl (fun _ => rfl)) _).trans (bind_map_congr fun positionEw _ => ?_)
    -- item <7>
    refine (bind_of_eq (skipComma_eq h6) _).trans (bind_map_congr fun t7 ht7 => ?_)
    have h7 := (after_suffix ht7).trans h6
    refine (bind_of_eq (number_eq
      (fun speed => GnrmcUpdate.apply gps { GnrmcUpdate.none with
        dateDay, latitude, positionSn, longitude, positionEw, speed })
      (fun s => fl.narrow (fl.times185 (fl.atof s))) h7 rfl (fun _ => rfl)) _).trans
      (bind_map_congr fun speed _ => ?_)
    -- item <8>
    refine (bind_of_eq (skipComma_eq h7) _).trans (bind_map_congr fun t8 ht8 => ?_)
    have h8 := (after_suffix ht8).trans h7
    refine (bind_of_eq (number_eq
      (fun direction => GnrmcUpdate.apply gps { GnrmcUpdate.none with
        dateDay, latitude, positionSn, longitude, positionEw, speed, direction })
      (fun s => fl.narrow (fl.atof s)) h8 rfl (fun _ => rfl)) _).trans
      (bind_map_congr fun direction _ => ?_)
    -- item <9>
    refine (bind_of_eq (skipComma_eq h8) _).trans (bind_map_congr fun t9 ht9 => ?_)
    have h9 := (after_suffix ht9).trans h8
    refine (copyString_eq
      (fun dateYear => GnrmcUpdate.apply gps
        ⟨dateDay, latitude, positionSn, longitude, positionEw, speed, direction, dateYear⟩)
      6 h9 rfl (fun _ => rfl)).trans ?_
    cases column t9 fun t => (stringOf t).bind fun s => (CharArray.zero 16).copy s 6 <;> rfl

/-! ### `parse_gngga` -/

/-- The members that a run of `parse_gngga` sets. -/
structure GnggaUpdate where
  satellite : Option Int
  height : Option (BitVec 32)

def GnggaUpdate.none : GnggaUpdate := ⟨.none, .none⟩

def GnggaUpdate.apply (gps : GpsInfo) (u : GnggaUpdate) : GpsInfo :=
  { gps with
    satellite := u.satellite.getD gps.satellite
    height := u.height.getD gps.height }

/-- The columns from item <6> on. -/
def gnggaColumns (fl : FloatOps) (t : Bytes) : Option GnggaUpdate := do
  let t ← after comma t
  let satellite ← column t fun t => (stringOf t).map fl.atoi
  let t ← after comma t
  let t ← after comma t
  let height ← column t fun t => (stringOf t).map fun s => fl.narrow (fl.atof s)
  some ⟨satellite, height⟩

/-- `parse_gngga` as an update. -/
def gnggaUpdate (fl : FloatOps) (buf : Bytes) : Option GnggaUpdate := do
  let t ← afterN comma 5 buf
  let c ← t.head?
  if c = ascii '0' then some .none else gnggaColumns fl t

theorem scanItems_five (fuel : Nat) (i : Int) : scanItems buf fuel i 5 = some i := by
  cases fuel <;> rfl

/-- The scan for the `k` commas that are left, by induction on what is left of the buffer. -/
theorem scanItems_idx : ∀ (t : Bytes) (fuel item k : Nat), t <:+ buf → t.length ≤ fuel →
    item + k = 5 → scanItems buf fuel (idx buf t) item = (afterN comma k t).map (idx buf) := by
  intro t
  induction t with
  | nil =>
    intro fuel item k ht _ hitem
    cases k with
    | zero =>
      obtain rfl : item = 5 := hitem
      exact scanItems_five fuel _
    | succ k =>
      have hlt : item < 5 := by omega
      cases fuel with
      | zero => rw [scanItems, if_pos hlt]; rfl
      | succ fuel => rw [scanItems, if_pos hlt, load_idx ht]; rfl
  | cons c t ih =>
    intro fuel item k ht hfuel hitem
    cases k with
    | zero =>
      obtain rfl : item = 5 := hitem
      exact scanItems_five fuel _
    | succ k =>
      have hlt : item < 5 := by omega
      cases fuel with
      | zero => exact absurd hfuel (by simp)
      | succ fuel =>
        have ht' : t <:+ buf := (List.suffix_cons c t).trans ht
        rw [scanItems, if_pos hlt, load_idx ht, List.head?_cons, Option.bind_eq_bind,
          Option.bind_some, idx_cons ht, afterN_succ_cons]
        apply ih fuel _ _ ht' (Nat.le_of_succ_le_succ hfuel)
        split <;> omega

theorem parseGngga_eq (fl : FloatOps) (gps : GpsInfo) (buf : Bytes) :
    parseGngga fl gps buf = (gnggaUpdate fl buf).map (GnggaUpdate.apply gps) := by
  have hbuf : buf <:+ buf := List.suffix_rfl
  have hscan : scanItems buf buf.length 0 0 = (afterN comma 5 buf).map (idx buf) := by
    rw [← idx_self buf]
    exact scanItems_idx buf buf.length 0 5 hbuf (Nat.le_refl _) rfl
  rw [parseGngga, gnggaUpdate, hscan]
  refine (Option.bind_map).trans (bind_map_congr fun t6 ht6 => ?_)
  have h6 := afterN_suffix ht6
  dsimp only [Function.comp_apply]
  rw [load_idx h6]
  refine bind_map_congr fun c _ => ?_
  by_cases hc : c = ascii '0'
  · rw [if_pos hc, if_pos hc]
    rfl
  · rw [if_neg hc, if_neg hc, gnggaColumns]
    -- item <7>
    refine (bind_of_eq (skipComma_eq h6) _).trans (bind_map_congr fun t7 ht7 => ?_)
    have h7 := (after_suffix ht7).trans h6
    refine (bind_of_eq (number_eq
      (fun satellite => GnggaUpdate.apply gps { GnggaUpdate.none with satellite })
      fl.atoi h7 rfl (fun _ => rfl)) _).trans (bind_map_congr fun satellite _ => ?_)
    -- item <8>
    refine (bind_of_eq (skipComma_eq h7) _).trans (bind_map_congr fun t8 ht8 => ?_)
    have h8 := (after_suffix ht8).trans h7
    -- item <9>
    refine (bind_of_eq (skipComma_eq h8) _).trans (bind_map_congr fun t9 ht9 => ?_)
    have h9 := (after_suffix ht9).trans h8
    refine (number_eq (fun height => GnggaUpdate.apply gps ⟨satellite, height⟩)
      (fun s => fl.narrow (fl.atof s)) h9 rfl (fun _ => rfl)).trans ?_
    cases column t9 fun t => (stringOf t).map fun s => fl.narrow (fl.atof s) <;> rfl

end Gps
end CFunction
