import Mathlib.Data.List.Nodup
import CFunction.Uart.GpsInfo
import CFunction.Misc.Checksum

/-!
# The packet test

What `parse_packet` does to a packet before it calls a sentence parser, in terms of the parts of
the packet: its first byte, the data, and the three bytes at its end.
-/

namespace CFunction
namespace Gps

open CString ReadGps

/-- The two hexadecimal digits of a byte, in lower case. -/
def hex (b : UInt8) : Bytes :=
  [(text "0123456789abcdef").getD (b.toNat / 16) 0,
    (text "0123456789abcdef").getD (b.toNat % 16) 0]

/-- The exclusive or of the bytes. -/
def xorOf (s : Bytes) : UInt8 := s.foldl (fun crc b => crc ^^^ b) 0

/-- The third byte from the end is a `*`, and the two behind it are the digits of the exclusive
or of all bytes between the first one and the `*`, in lower or upper case. -/
def ChecksumOk (p : Bytes) : Prop :=
  p[p.length - 3]? = some (ascii '*') ∧
    (p.drop (p.length - 2)).map tolower = hex (xorOf ((p.take (p.length - 3)).drop 1))

instance (p : Bytes) : Decidable (ChecksumOk p) := inferInstanceAs (Decidable (_ ∧ _))

/-- Whatever stands behind the packet, its bytes and `mgps` stay as they are, and no sentence
parser is called. -/
structure Rejected (p : Bytes) : Prop where
  test : ∀ rest, packetTest (p ++ 0 :: rest) = some (p ++ 0 :: rest, none)
  unchanged : ∀ fl st rest, parsePacket fl st (p ++ 0 :: rest) = some (p ++ 0 :: rest, st)

/-- The parser for the data of an accepted packet. -/
def sentenceOf (data : Bytes) : Option Sentence :=
  if strncmpEq (text "GNRMC") data 5 then some .gnrmc
  else if strncmpEq (text "GNGGA") data 5 then some .gngga
  else none

variable {p data rest t : Bytes} {c c₀ m d₁ d₂ : UInt8}

/-! ### Digits -/

/-- `crc_str` (`read_gps.c:578-579`). -/
def crcStr (crc : UInt8) : Bytes :=
  [hexStr.getD ((crc.toNat &&& 0xF0) >>> 4) 0, hexStr.getD (crc.toNat &&& 0x0F) 0]

/-- `crc_str` is the two digits in capitals, and no digit is a NUL or a comma. -/
theorem crcStr_spec : ∀ crc, (crcStr crc).map tolower = hex crc ∧ 0 ∉ crcStr crc ∧
    comma ∉ hex crc := forall_byte (by set_option maxRecDepth 8192 in decide)

theorem digit_injective : ∀ m < 16, ∀ n < 16, (text "0123456789abcdef").getD m 0 =
    (text "0123456789abcdef").getD n 0 → m = n := by
  have hnodup : (text "0123456789abcdef").Nodup := by decide
  have hlen : (text "0123456789abcdef").length = 16 := rfl
  intro m hm n hn h
  rw [List.getD_eq_getElem?_getD, List.getD_eq_getElem?_getD, List.getElem?_eq_getElem (hlen ▸ hm),
    List.getElem?_eq_getElem (hlen ▸ hn), Option.getD_some, Option.getD_some] at h
  exact hnodup.getElem_inj_iff.1 h

theorem hex_injective {a b : UInt8} (h : hex a = hex b) : a = b := by
  obtain ⟨hhigh, htail⟩ := List.cons.inj h
  obtain ⟨hlow, -⟩ := List.cons.inj htail
  have ha := a.toNat_lt
  have hb := b.toNat_lt
  have hdiv := digit_injective _ (by omega) _ (by omega) hhigh
  have hmod := digit_injective _ (by omega) _ (by omega) hlow
  apply UInt8.toNat_inj.1
  omega

theorem differ_eq_false_iff {fold : UInt8 → UInt8} : ∀ {a b : Bytes}, 0 ∉ a →
    a.length = b.length → (differ fold a b = false ↔ a.map fold = b.map fold)
  | [], [], _, _ => by simp [differ]
  | x :: a, y :: b, ha, hlen => by
    obtain ⟨hx, ha⟩ := not_or.1 (fun h => ha (List.mem_cons.2 h))
    have ih : differ fold a b = false ↔ _ := differ_eq_false_iff ha (Nat.succ.inj hlen)
    rw [differ, List.map_cons, List.map_cons]
    by_cases hxy : fold x = fold y
    · rw [if_neg (not_not.2 hxy), if_neg (Ne.symm hx), ih, hxy, List.cons_inj_right]
    · rw [if_pos hxy]
      simp [hxy]

theorem xorOf_set_ne {s : Bytes} {i : Nat} (hi : i < s.length) (hc : s[i] ≠ c) :
    xorOf (s.set i c) ≠ xorOf s := by
  apply Checksum.foldl_set_ne _ _ 0 hi hc
  · exact fun b x y h => (UInt8.xor_left_inj b).1 h
  · exact fun s x y h => (UInt8.xor_right_inj s).1 h

/-! ### The parts of a packet -/

theorem exists_parts (hlen : 4 ≤ p.length) :
    ∃ c₀ data m d₁ d₂, p = c₀ :: (data ++ [m, d₁, d₂]) := by
  cases p with
  | nil => exact absurd hlen (by simp)
  | cons c₀ t =>
    rw [List.length_cons] at hlen
    have hlast : (t.drop (t.length - 3)).length = 3 := by
      rw [List.length_drop]
      omega
    obtain ⟨m, d₁, d₂, hdrop⟩ := List.length_eq_three.1 hlast
    refine ⟨c₀, t.take (t.length - 3), m, d₁, d₂, ?_⟩
    rw [← hdrop, List.take_append_drop]

theorem drop_data (c₀ : UInt8) (data t : Bytes) :
    (c₀ :: (data ++ t)).drop (data.length + 1) = t := List.drop_left

theorem drop_star (c₀ m : UInt8) (data t : Bytes) :
    (c₀ :: (data ++ m :: t)).drop (data.length + 2) = t := by
  have hdrop : ((c₀ :: (data ++ m :: t)).drop (data.length + 1)).drop 1 = t := by
    rw [drop_data]
    rfl
  rwa [List.drop_drop] at hdrop

/-- The bytes that the check sum is about. -/
theorem data_parts : ((c₀ :: (data ++ [m, d₁, d₂])).take
    ((c₀ :: (data ++ [m, d₁, d₂])).length - 3)).drop 1 = data := by
  have hcut : (c₀ :: (data ++ [m, d₁, d₂])).length - 3 = data.length + 1 := by simp
  rw [hcut]
  exact List.take_left

theorem checksumOk_parts : ChecksumOk (c₀ :: (data ++ [m, d₁, d₂])) ↔
    m = ascii '*' ∧ [d₁, d₂].map tolower = hex (xorOf data) := by
  have hlen : (c₀ :: (data ++ [m, d₁, d₂])).length = data.length + 4 := by simp
  have hstar : (c₀ :: (data ++ [m, d₁, d₂]))[data.length + 4 - 3]? = some m := by
    rw [← List.head?_drop]
    exact congrArg List.head? (drop_data c₀ data _)
  have hdigits : (c₀ :: (data ++ [m, d₁, d₂])).drop (data.length + 4 - 2) = [d₁, d₂] :=
    drop_star c₀ m data _
  have hdata : ((c₀ :: (data ++ [m, d₁, d₂])).take (data.length + 4 - 3)).drop 1 = data :=
    List.take_left
  rw [ChecksumOk, hlen, hstar, hdigits, hdata, Option.some_inj]

/-! ### What the test reads and writes -/

theorem strlen_parts (hne : 0 ∉ c₀ :: (data ++ [m, d₁, d₂])) :
    strlen (c₀ :: (data ++ m :: d₁ :: d₂ :: 0 :: rest)) = some (data.length + 4) := by
  have h := strlen_append_nul rest hne
  rw [List.cons_append, List.append_assoc] at h
  simpa using h

theorem load_star (c₀ m : UInt8) (data t : Bytes) :
    load (c₀ :: (data ++ m :: t)) (((data.length + 4 : Nat) : Int) - 3) = some m := by
  have hi : ((data.length + 4 : Nat) : Int) - 3 = (data.length + 1 : Nat) := by omega
  rw [hi, load_of_drop (drop_data c₀ data (m :: t))]

theorem bccAt_data (c₀ : UInt8) (data t : Bytes) :
    bccAt (c₀ :: (data ++ t)) 1 (((data.length + 4 : Nat) : Int) - 4) = some (xorOf data) := by
  have hcount : (((data.length + 4 : Nat) : Int) - 4).toNat = data.length := by omega
  have htake : ((c₀ :: (data ++ t)).drop 1).take data.length = data := List.take_left
  have hroom : 1 + data.length ≤ (c₀ :: (data ++ t)).length := by
    rw [List.length_cons, List.length_append]
    omega
  rw [bccAt, hcount, htake, if_pos hroom, xorOf]

theorem store_star (c₀ m : UInt8) (data t : Bytes) :
    store (c₀ :: (data ++ m :: t)) (((data.length + 4 : Nat) : Int) - 3) 0 =
      some (c₀ :: (data ++ 0 :: t)) := by
  have hi : ((data.length + 4 : Nat) : Int) - 3 = (data.length + 1 : Nat) := by omega
  rw [hi, store_nat 0 (by simp), List.set_cons_succ, List.set_append_right _ _ (Nat.le_refl _),
    Nat.sub_self, List.set_cons_zero]

theorem cstrAt_data (c₀ : UInt8) (t : Bytes) (hdata : 0 ∉ data) :
    cstrAt (c₀ :: (data ++ 0 :: t)) 1 = some data := by
  have hdrop : (c₀ :: (data ++ 0 :: t)).drop (1 : Int).toNat = data ++ 0 :: t := rfl
  rw [cstrAt, hdrop, cstr_append_nul t hdata, if_pos (by simp)]

/-- The comparison of the digits. -/
theorem differ_crcStr (crc : UInt8) :
    differ tolower (crcStr crc) [d₁, d₂] = true ↔ [d₁, d₂].map tolower ≠ hex crc := by
  have h : differ tolower (crcStr crc) [d₁, d₂] = false ↔ _ :=
    differ_eq_false_iff (crcStr_spec crc).2.1 rfl
  rw [← Bool.not_eq_false, h, (crcStr_spec crc).1, ne_comm]

/-- The test, in terms of the parts. -/
theorem packetTest_parts (hne : 0 ∉ c₀ :: (data ++ [m, d₁, d₂])) :
    packetTest (c₀ :: (data ++ m :: d₁ :: d₂ :: 0 :: rest)) =
      if m = ascii '*' ∧ [d₁, d₂].map tolower = hex (xorOf data) then
        some (c₀ :: (data ++ 0 :: d₁ :: d₂ :: 0 :: rest), sentenceOf data)
      else some (c₀ :: (data ++ m :: d₁ :: d₂ :: 0 :: rest), none) := by
  have hdata : 0 ∉ data := fun h => hne (by simp [h])
  have hlast : ((c₀ :: (data ++ m :: d₁ :: d₂ :: 0 :: rest)).drop (data.length + 4 - 2)).take 2 =
      [d₁, d₂] := congrArg (List.take 2) (drop_star c₀ m data _)
  rw [packetTest, strlen_parts hne, Option.bind_eq_bind, Option.bind_some, load_star,
    Option.bind_eq_bind, Option.bind_some]
  by_cases hm : m = ascii '*'
  · rw [if_neg (not_not.2 hm), bccAt_data, Option.bind_eq_bind, Option.bind_some, hlast]
    change (if differ tolower (crcStr (xorOf data)) [d₁, d₂] = true then _ else _) = _
    by_cases hd : [d₁, d₂].map tolower = hex (xorOf data)
    · have hok : m = ascii '*' ∧ [d₁, d₂].map tolower = hex (xorOf data) := ⟨hm, hd⟩
      rw [if_neg (fun h => (differ_crcStr _).1 h hd), store_star, Option.bind_some,
        cstrAt_data c₀ _ hdata, Option.bind_some,
        if_pos hok, sentenceOf]
      split
      · rfl
      · split <;> rfl
    · rw [if_pos ((differ_crcStr _).2 hd), if_neg (fun h => hd h.2)]
  · rw [if_pos hm, if_neg (fun h => hm h.1)]

theorem parts_append : c₀ :: (data ++ [m, d₁, d₂]) ++ 0 :: rest =
    c₀ :: (data ++ m :: d₁ :: d₂ :: 0 :: rest) := by simp

theorem rejected_iff (hne : 0 ∉ p) (hlen : 4 ≤ p.length) : Rejected p ↔ ¬ ChecksumOk p := by
  obtain ⟨c₀, data, m, d₁, d₂, rfl⟩ := exists_parts hlen
  rw [checksumOk_parts]
  constructor
  · rintro ⟨htest, -⟩ hok
    -- an accepted packet loses its `*`
    have h := htest []
    rw [parts_append, packetTest_parts hne, if_pos hok] at h
    have hbuf := congrArg (List.drop (data.length + 1)) (congrArg Prod.fst (Option.some.inj h))
    rw [drop_data, drop_data] at hbuf
    exact hne (by simp [(List.cons.inj hbuf).1])
  · intro hbad
    have htest : ∀ rest, packetTest (c₀ :: (data ++ [m, d₁, d₂]) ++ 0 :: rest) =
        some (c₀ :: (data ++ [m, d₁, d₂]) ++ 0 :: rest, none) := by
      intro rest
      rw [parts_append, packetTest_parts hne, if_neg hbad]
    refine ⟨htest, fun fl st rest => ?_⟩
    rw [parsePacket, htest]
    rfl

/-- One byte replaced: the data have another exclusive or, there is no `*`, or the digits are
others. -/
theorem not_checksumOk_set (hlen : 4 ≤ p.length) (hok : ChecksumOk p) {i : Nat} (hpos : 0 < i)
    (hi : i < p.length) (hc : p[i]? ≠ some c)
    (hdigit : p.length - 2 ≤ i → p[i]?.map tolower ≠ some (tolower c)) :
    ¬ ChecksumOk (p.set i c) := by
  obtain ⟨c₀, data, m, d₁, d₂, rfl⟩ := exists_parts hlen
  obtain ⟨rfl, hd⟩ := checksumOk_parts.1 hok
  obtain ⟨k, rfl⟩ := Nat.exists_eq_add_one.2 hpos
  have hplen : (c₀ :: (data ++ [ascii '*', d₁, d₂])).length = data.length + 4 := by simp
  rw [hplen] at hi hdigit
  rw [List.getElem?_cons_succ] at hc hdigit
  rw [List.set_cons_succ]
  by_cases hk : k < data.length
  · rw [List.getElem?_append_left hk, List.getElem?_eq_getElem hk] at hc
    rw [List.set_append_left k c hk, checksumOk_parts, hd]
    rintro ⟨-, hxor⟩
    exact xorOf_set_ne hk (fun h => hc (congrArg some h)) (hex_injective hxor.symm)
  · obtain ⟨j, rfl⟩ := Nat.exists_eq_add_of_le (Nat.le_of_not_lt hk)
    rw [List.getElem?_append_right (Nat.le_add_right _ j), Nat.add_sub_cancel_left] at hc hdigit
    rw [List.set_append_right _ c (Nat.le_add_right _ j), Nat.add_sub_cancel_left]
    match j with
    | 0 =>
      rw [List.set_cons_zero, checksumOk_parts]
      exact fun h => hc (congrArg some h.1.symm)
    | 1 =>
      rw [List.set_cons_succ, List.set_cons_zero, checksumOk_parts, ← hd]
      rintro ⟨-, h⟩
      exact hdigit (by omega) (congrArg some (List.cons.inj h).1.symm)
    | 2 =>
      rw [List.set_cons_succ, List.set_cons_succ, List.set_cons_zero, checksumOk_parts, ← hd]
      rintro ⟨-, h⟩
      have hlast := (List.cons.inj (List.cons.inj h).2).1
      exact hdigit (by omega) (congrArg some hlast.symm)
    | j + 3 => omega

/-! ### The gate -/

/-- A packet with a bad check sum is not passed on and changes nothing; and when the check sum
is right, it is bad after any one byte behind the first is replaced. -/
theorem parsePacket_gate {p : Bytes} (hne : 0 ∉ p) (hlen : 4 ≤ p.length) :
    (Rejected p ↔ ¬ ChecksumOk p) ∧
      (ChecksumOk p → ∀ (i : Nat) (c : UInt8), 0 < i → i < p.length → c ≠ 0 → p[i]? ≠ some c →
        (p.length - 2 ≤ i → p[i]?.map tolower ≠ some (tolower c)) → Rejected (p.set i c)) := by
  refine ⟨rejected_iff hne hlen, ?_⟩
  intro hok i c hpos hi hc0 hc hdigit
  have hne' : 0 ∉ p.set i c := fun h => (List.mem_or_eq_of_mem_set h).elim hne (Ne.symm hc0)
  have hlen' : 4 ≤ (p.set i c).length := by rwa [List.length_set]
  exact (rejected_iff hne' hlen').2 (not_checksumOk_set hlen hok hpos hi hc hdigit)

theorem parsePacket_gate_sample :
    ChecksumOk (text "$GK*0c") ∧ Rejected (text "$GL*0c") := by
  have hok : ChecksumOk (text "$GK*0c") := by decide
  have hgate := parsePacket_gate (p := text "$GK*0c") (by decide) (by decide)
  exact ⟨hok, hgate.2 hok 2 (ascii 'L') (by decide) (by decide) (by decide) (by decide) (by decide)⟩

/-! ### The test in `rx_buf` -/

open ByteMemory

variable {mem : ByteMemory}

theorem slice_set_of_ge {a x : Int} {n : Nat} {b : UInt8} (h : a + n ≤ x) :
    (mem.set x b).slice a n = mem.slice a n := slice_congr fun y _ hy => set_of_ne b (by omega)

/-- `strncmp` with the string at `buf`, which may end within the `tag.length` bytes. -/
theorem differ_head {buf : Int} {tag : Bytes} (htag : 0 ∉ tag)
    (hdata : mem.slice buf data.length = data) (hnul : mem (buf + data.length) = 0) :
    (!differ id tag (mem.slice buf tag.length)) = strncmpEq tag data tag.length := by
  have hdiffer : differ id tag (mem.slice buf tag.length) = false ↔ _ :=
    differ_eq_false_iff htag (slice_length buf tag.length).symm
  rw [List.map_id, List.map_id] at hdiffer
  have hsame : tag = mem.slice buf tag.length ↔ tag = data.take tag.length := by
    by_cases hk : tag.length ≤ data.length
    · rw [← slice_take hk, hdata]
    · constructor
      · intro h
        -- the slice holds the NUL behind the data
        have hmem : mem (buf + data.length) ∈ mem.slice buf tag.length :=
          mem_slice (by omega) (by omega)
        rw [hnul, ← h] at hmem
        exact absurd hmem htag
      · intro h
        have hlen := congrArg List.length h
        rw [List.length_take] at hlen
        omega
  rw [strncmpEq, List.take_length, Bool.eq_iff_iff, Bool.not_eq_true', hdiffer, hsame,
    decide_eq_true_iff]

/-- The test of a packet in `rx_buf`, in terms of its parts. -/
theorem packetTest_memory_parts {buf : Int}
    (hp : mem.slice buf (data.length + 5) = c₀ :: (data ++ [m, d₁, d₂, 0]))
    (hne : 0 ∉ c₀ :: (data ++ [m, d₁, d₂])) (hsize : data.length + 4 < BUF_SIZE) :
    ReadGps.packetTest mem buf =
      if m = ascii '*' ∧ [d₁, d₂].map tolower = hex (xorOf data) then
        some (mem.set (buf + (data.length + 1 : Nat)) 0,
          ⟨c₀ :: (data ++ [m, d₁, d₂]), sentenceOf data⟩)
      else some (mem, ⟨c₀ :: (data ++ [m, d₁, d₂]), none⟩) := by
  have hplen : (c₀ :: (data ++ [m, d₁, d₂])).length = data.length + 4 := by simp
  have hall : mem.slice buf ((c₀ :: (data ++ [m, d₁, d₂])).length + [(0 : UInt8)].length) =
      c₀ :: (data ++ [m, d₁, d₂]) ++ [0] := by
    rw [hplen, parts_append]
    exact hp
  obtain ⟨htext, hend⟩ := slice_append hall
  obtain ⟨hnul, -, -⟩ := slice_eq_cons hend
  have hcstr : mem.cstrAt BUF_SIZE buf = some (c₀ :: (data ++ [m, d₁, d₂])) := by
    rw [cstrAt_eq (htext.symm ▸ hne) hnul (hplen.symm ▸ hsize), htext]
  have hcut : mem.slice buf ((c₀ :: data).length + [m, d₁, d₂, 0].length) =
      c₀ :: data ++ [m, d₁, d₂, 0] := hp
  obtain ⟨hfront, htail⟩ := slice_append hcut
  obtain ⟨-, -, hdata⟩ := slice_eq_cons hfront
  obtain ⟨hm, -, hdigits⟩ := slice_eq_cons htail
  have hstar : buf + (((data.length + 4 : Nat) : Int) - 3) = buf + (data.length + 1 : Nat) := by
    omega
  have hbcc : bcc mem (buf + 1) (((data.length + 4 : Nat) : Int) - 4) = xorOf data := by
    have hcount : (((data.length + 4 : Nat) : Int) - 4).toNat = data.length := by omega
    rw [bcc, hcount, xorOf]
    exact congrArg _ hdata
  have hlast : mem.slice (buf + (((data.length + 4 : Nat) : Int) - 2)) 2 = [d₁, d₂] := by
    have hplace : buf + (((data.length + 4 : Nat) : Int) - 2) =
        buf + (data.length + 1 : Nat) + 1 := by omega
    rw [hplace, ← slice_take (Nat.le_succ 2)]
    exact congrArg (List.take 2) hdigits
  have hhead : ∀ tag : Bytes, tag.length = 5 → 0 ∉ tag →
      (!differ id tag ((mem.set (buf + (data.length + 1 : Nat)) 0).slice (buf + 1) 5)) =
        strncmpEq tag data 5 := by
    intro tag hlen htag
    rw [← hlen]
    apply differ_head htag
    · rw [slice_set_of_ge (by omega)]
      exact hdata
    · rw [show buf + 1 + (data.length : Int) = buf + (data.length + 1 : Nat) by omega, set_self]
  have hgnrmc : ['G', 'N', 'R', 'M', 'C'].map ascii = text "GNRMC" := by decide
  have hgngga : ['G', 'N', 'G', 'G', 'A'].map ascii = text "GNGGA" := by decide
  rw [ReadGps.packetTest, hcstr, Option.bind_eq_bind, Option.bind_some, hplen]
  dsimp only
  rw [hstar, show mem (buf + (data.length + 1 : Nat)) = m from hm]
  by_cases hstarred : m = ascii '*'
  · rw [if_neg (not_not.2 hstarred), hbcc, hlast]
    change (if differ tolower (crcStr (xorOf data)) [d₁, d₂] = true then _ else _) = _
    by_cases hd : [d₁, d₂].map tolower = hex (xorOf data)
    · have hok : m = ascii '*' ∧ [d₁, d₂].map tolower = hex (xorOf data) := ⟨hstarred, hd⟩
      rw [if_neg (fun h => (differ_crcStr _).1 h hd), if_pos hok, hgnrmc, hgngga,
        hhead _ (by decide) (by decide), hhead _ (by decide) (by decide), sentenceOf]
      split
      · rfl
      · split <;> rfl
    · rw [if_pos ((differ_crcStr _).2 hd), if_neg (fun h => hd h.2)]
  · rw [if_pos hstarred, if_neg (fun h => hstarred h.1)]

end Gps
end CFunction
