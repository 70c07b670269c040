import CFunction.Time.Proofs.Utc2btcRuns
import CFunction.Uart.Proofs.PacketBounds
import CFunction.Uart.Receiver

/-!
# Packets in `rx_buf`

A sentence parser that has the columns it looks for stops inside the packet, so that what stands
behind it in `rx_buf` makes no difference: `parse_packet` does to such a packet what it does to the
packet alone.
-/

namespace CFunction
namespace Gps

open CString Fields ReadGps

variable {b rest : Bytes} {fl : FloatOps}

/-! ### What stands behind the NUL -/

theorem column_append {α : Type} {f : Bytes → Option α} (hf : f (b ++ 0 :: rest) = f (b ++ [0])) :
    column (b ++ 0 :: rest) f = column (b ++ [0]) f := by
  cases b with
  | nil =>
    rw [List.nil_append, List.nil_append] at hf ⊢
    rw [column, column, hf]
  | cons c b =>
    rw [List.cons_append, List.cons_append] at hf ⊢
    rw [column, column, hf]

theorem stringOf_append (hb : 0 ∉ b) : stringOf (b ++ 0 :: rest) = stringOf (b ++ [0]) := by
  rw [stringOf_isSome, stringOf_isSome, cstr_append_nul rest hb, cstr_append_nul [] hb]

theorem head_append : (b ++ 0 :: rest).head? = (b ++ [0]).head? := by
  cases b <;> rfl

theorem bind_after_append {β : Type} {next : Bytes → Option β} {k : Nat} (hb : 0 ∉ b)
    (hcount : k + 1 ≤ b.count comma)
    (hnext : ∀ b : Bytes, 0 ∉ b → k ≤ b.count comma → next (b ++ 0 :: rest) = next (b ++ [0])) :
    (after comma (b ++ 0 :: rest)).bind next = (after comma (b ++ [0])).bind next := by
  cases h : after comma b with
  | none =>
    rw [count_of_after_eq_none h] at hcount
    exact absurd hcount (by simp)
  | some t =>
    rw [count_after h] at hcount
    rw [after_append_of_some h, after_append_of_some h]
    exact hnext t (fun hmem => hb ((after_suffix h).subset hmem)) (by omega)

theorem bind_column_append {α β : Type} {f : Bytes → Option α} {next next' : Option α → Option β}
    (hf : f (b ++ 0 :: rest) = f (b ++ [0])) (hnext : ∀ v, next v = next' v) :
    (column (b ++ 0 :: rest) f).bind next = (column (b ++ [0]) f).bind next' := by
  rw [column_append hf]
  exact Option.bind_congr fun v _ => hnext v

theorem stringOf_map_append {α : Type} (f : Bytes → α) (hb : 0 ∉ b) :
    (stringOf (b ++ 0 :: rest)).map f = (stringOf (b ++ [0])).map f := by
  rw [stringOf_append hb]

theorem gnrmcColumns_append (dateDay : Option (CharArray 16)) (hb : 0 ∉ b)
    (hcount : 6 ≤ b.count comma) :
    gnrmcColumns fl dateDay (b ++ 0 :: rest) = gnrmcColumns fl dateDay (b ++ [0]) := by
  refine bind_column_append (stringOf_map_append _ hb) fun _ => ?_
  refine bind_after_append hb hcount fun b hb hcount => ?_
  refine bind_column_append head_append fun _ => ?_
  refine bind_after_append hb hcount fun b hb hcount => ?_
  refine bind_column_append (stringOf_map_append _ hb) fun _ => ?_
  refine bind_after_append hb hcount fun b hb hcount => ?_
  refine bind_column_append head_append fun _ => ?_
  refine bind_after_append hb hcount fun b hb hcount => ?_
  refine bind_column_append (stringOf_map_append _ hb) fun _ => ?_
  refine bind_after_append hb hcount fun b hb hcount => ?_
  refine bind_column_append (stringOf_map_append _ hb) fun _ => ?_
  refine bind_after_append hb hcount fun b hb _ => ?_
  exact bind_column_append (by rw [stringOf_append hb]) fun _ => rfl

theorem gnrmcUpdate_append (hb : 0 ∉ b) (hfits : GnrmcFits b) :
    gnrmcUpdate fl (b ++ 0 :: rest) = gnrmcUpdate fl (b ++ [0]) := by
  rw [gnrmcUpdate, gnrmcUpdate, stringOf_isSome, stringOf_isSome, cstr_append_nul rest hb,
    cstr_append_nul [] hb, Option.bind_eq_bind, Option.bind_some, Option.bind_eq_bind,
    Option.bind_some]
  cases hx : strstr [ascii 'A', comma] b with
  | none => rfl
  | some strx =>
    have hroom := strstr_room (List.cons_ne_nil _ _) hx
    have hdrop : ∀ more, (b ++ 0 :: more).drop (strx + 2) = b.drop (strx + 2) ++ 0 :: more :=
      fun more => List.drop_append_of_le_length hroom
    have hcount := (hfits strx hx).2
    dsimp only
    rw [hdrop, hdrop]
    refine bind_column_append rfl fun dateDay => ?_
    exact gnrmcColumns_append dateDay (fun h => hb (List.mem_of_mem_drop h)) hcount

theorem gnggaColumns_append (hb : 0 ∉ b) (hcount : 3 ≤ b.count comma) :
    gnggaColumns fl (b ++ 0 :: rest) = gnggaColumns fl (b ++ [0]) := by
  refine bind_after_append hb hcount fun b hb hcount => ?_
  refine bind_column_append (stringOf_map_append _ hb) fun _ => ?_
  refine bind_after_append hb hcount fun b hb hcount => ?_
  refine bind_after_append hb hcount fun b hb _ => ?_
  exact bind_column_append (stringOf_map_append _ hb) fun _ => rfl

theorem gnggaUpdate_append (hb : 0 ∉ b) (hfits : GnggaFits b) :
    gnggaUpdate fl (b ++ 0 :: rest) = gnggaUpdate fl (b ++ [0]) := by
  obtain ⟨u, hu⟩ := Option.isSome_iff_exists.1 ((afterN_isSome 5 b).2 hfits.1)
  rw [gnggaUpdate, gnggaUpdate, afterN_append_of_some hu, afterN_append_of_some hu,
    Option.bind_eq_bind, Option.bind_some, Option.bind_eq_bind, Option.bind_some, head_append]
  refine Option.bind_congr fun c hc => ?_
  by_cases hzero : c = ascii '0'
  · rw [if_pos hzero, if_pos hzero]
  · rw [if_neg hzero, if_neg hzero]
    refine gnggaColumns_append (fun h => hb ((afterN_suffix hu).subset h)) ?_
    rcases hfits.2 with ⟨t, ht⟩ | hcount
    · rw [hu, Option.some_inj] at ht
      rw [ht] at hc
      exact absurd (Option.some.inj hc).symm hzero
    · rw [count_afterN hu] at hcount
      omega

/-! ### `fix_gps_info` -/

/-- `fix_gps_info` finds the NULs of the date fields, and if it carries a day over, the length of
the month in the table. -/
def Fixable (st : State) : Prop :=
  0 ∈ st.mgps.dateDay.bytes ∧ (st.mgps.dateDay.str ≠ [] →
    0 ∈ st.mgps.dateYear.bytes ∧ (st.mgps.dateYear.str ≠ [] → 16 ≤ twoDigits st.mgps.dateDay 0 →
      1 ≤ twoDigits st.mgps.dateYear 2 ∧ twoDigits st.mgps.dateYear 2 ≤ st.dateMday.length))

theorem charValue_bounds (c : UInt8) : -128 ≤ charValue c ∧ charValue c ≤ 127 := by
  have hlt := c.toNat_lt
  rw [charValue]
  by_cases h : c < 128
  · have hlow : c.toNat < 128 := h
    rw [if_pos h]
    omega
  · have hhigh : ¬ c.toNat < 128 := h
    rw [if_neg h]
    omega

theorem twoDigits_bounds (a : CharArray 16) (k : Nat) :
    -2000 ≤ twoDigits a k ∧ twoDigits a k ≤ 2000 := by
  have h₁ := charValue_bounds (a.bytes.getD k 0)
  have h₂ := charValue_bounds (a.bytes.getD (k + 1) 0)
  rw [twoDigits]
  omega

theorem read_eq {n : Nat} {a : CharArray n} (h : 0 ∈ a.bytes) : a.read = some a.str := if_pos h

theorem fixGpsInfo_isSome {st : State} : (fixGpsInfo fl st).isSome ↔ Fixable st := by
  rw [Fixable, fixGpsInfo]
  dsimp only [splitDegrees]
  by_cases hday : 0 ∈ st.mgps.dateDay.bytes
  · rw [read_eq hday, Option.bind_eq_bind, Option.bind_some]
    by_cases hnoDay : st.mgps.dateDay.str = []
    · rw [if_pos hnoDay]
      exact iff_of_true rfl ⟨hday, fun h => absurd hnoDay h⟩
    rw [if_neg hnoDay]
    by_cases hyear : 0 ∈ st.mgps.dateYear.bytes
    · rw [read_eq hyear, Option.bind_eq_bind, Option.bind_some]
      by_cases hnoYear : st.mgps.dateYear.str = []
      · rw [if_pos hnoYear]
        exact iff_of_true rfl ⟨hday, fun _ => ⟨hyear, fun h => absurd hnoYear h⟩⟩
      rw [if_neg hnoYear]
      have hhour := twoDigits_bounds st.mgps.dateDay 0
      have hcall := @Utc2btc.utc2btc_isSome st.dateMday {
        tmHour := twoDigits st.mgps.dateDay 0
        tmMin := twoDigits st.mgps.dateDay 2
        tmSec := twoDigits st.mgps.dateDay 4
        tmMday := twoDigits st.mgps.dateYear 0
        tmMon := twoDigits st.mgps.dateYear 2 - 1
        tmYear := twoDigits st.mgps.dateYear 4 + 100 } ⟨by dsimp only; omega, by dsimp only; omega⟩
      have hmonth : ∀ m n : Int, 0 ≤ m - 1 ∧ m - 1 < n ↔ 1 ≤ m ∧ m ≤ n := by omega
      rw [hmonth] at hcall
      generalize Utc2btc.utc2btc _ _ = o at hcall ⊢
      cases o with
      | none =>
        exact iff_of_false Bool.false_ne_true fun h =>
          absurd (hcall.2 ((h.2 hnoDay).2 hnoYear)) Bool.false_ne_true
      | some x => exact iff_of_true rfl ⟨hday, fun _ => ⟨hyear, fun _ => hcall.1 rfl⟩⟩
    · rw [CharArray.read, if_neg hyear]
      exact iff_of_false Bool.false_ne_true fun h => hyear (h.2 hnoDay).1
  · rw [CharArray.read, if_neg hday]
    exact iff_of_false Bool.false_ne_true fun h => hday h.1

/-! ### A packet alone -/

/-- `parse_packet` stops inside a packet, and can convert the date if the timer asks for it. A
string that is too short for the test is not passed on in `rx_buf`. -/
structure Harmless (st : State) (p : Bytes) : Prop where
  fits : 3 ≤ p.length → Fits p
  fixable : 4 ≤ p.length → ChecksumOk p →
    ((p.take (p.length - 3)).drop 1).take 5 = text "GNGGA" → st.flagSend = true → Fixable st

/-- What `parse_packet` makes of the state when it gets the packet alone. -/
def after (fl : FloatOps) (st : State) (p : Bytes) : State :=
  ((parsePacket fl st (p ++ [0])).map Prod.snd).getD st

/-- A string that is too short to have a tag. -/
theorem after_short {st : State} {p : Bytes} (hne : 0 ∉ p) (hlen : p.length < 4) :
    after fl st p = st := by
  by_cases hthree : p.length = 3
  · obtain ⟨m, d₁, d₂, rfl⟩ := List.length_eq_three.1 hthree
    obtain ⟨buf, htest⟩ := packetTest_three hne
    have htest' : packetTest ([m, d₁, d₂] ++ [0]) = some (buf, none) := htest
    rw [after, parsePacket, htest']
    rfl
  · rw [after, parsePacket, packetTest_short hne (by omega)]
    rfl

/-- The sentence parsers and `fix_gps_info` (`read_gps.c:585-597`), on the body of a packet. -/
def parseBody (fl : FloatOps) (st : State) (body : Bytes) : Option Sentence → Option State
  | none => some st
  | some .gnrmc => (parseGnrmc fl st.mgps body).map fun gps => { st with mgps := gps }
  | some .gngga => do
    let gps ← parseGngga fl st.mgps body
    let st := { st with mgps := gps }
    if st.flagSend then do
      let st ← fixGpsInfo fl st
      some { st with flagSend := false }
    else some st

theorem parsePacket_eq (st : State) (buf : Bytes) :
    parsePacket fl st buf = (packetTest buf).bind fun tested =>
      (parseBody fl st (tested.1.drop 7) tested.2).map fun st => (tested.1, st) := by
  rw [parsePacket]
  refine Option.bind_congr fun tested _ => ?_
  obtain ⟨buf, sentence⟩ := tested
  cases sentence with
  | none => rfl
  | some sentence =>
    cases sentence with
    | gnrmc =>
      simp only [parseBody]
      cases parseGnrmc fl st.mgps (buf.drop 7) <;> rfl
    | gngga =>
      simp only [parseBody]
      cases parseGngga fl st.mgps (buf.drop 7) with
      | none => rfl
      | some gps =>
        dsimp only [Option.bind_eq_bind, Option.bind_some]
        split
        · cases fixGpsInfo fl { st with mgps := gps } <;> rfl
        · rfl

section Body

variable {st : State} {sentence : Option Sentence}

/-- What stands behind the body makes no difference where the parser stops inside it. -/
theorem parseBody_append (hb : 0 ∉ b) (hgnrmc : sentence = some .gnrmc → GnrmcFits b)
    (hgngga : sentence = some .gngga → GnggaFits b) :
    parseBody fl st (b ++ 0 :: rest) sentence = parseBody fl st (b ++ [0]) sentence := by
  cases sentence with
  | none => rfl
  | some sentence =>
    cases sentence with
    | gnrmc =>
      rw [parseBody, parseBody, parseGnrmc_eq, parseGnrmc_eq, gnrmcUpdate_append hb (hgnrmc rfl)]
    | gngga =>
      rw [parseBody, parseBody, parseGngga_eq, parseGngga_eq, gnggaUpdate_append hb (hgngga rfl)]

theorem parseBody_isSome (hb : 0 ∉ b) (hgnrmc : sentence = some .gnrmc → GnrmcFits b)
    (hgngga : sentence = some .gngga → GnggaFits b)
    (hfix : sentence = some .gngga → st.flagSend = true → Fixable st) :
    (parseBody fl st (b ++ [0]) sentence).isSome := by
  have hnone : comma ∉ ([] : Bytes) := List.not_mem_nil
  cases sentence with
  | none => rfl
  | some sentence =>
    cases sentence with
    | gnrmc =>
      rw [parseBody, Option.isSome_map, parseGnrmc_eq, Option.isSome_map,
        gnrmcUpdate_isSome hb hnone]
      exact hgnrmc rfl
    | gngga =>
      obtain ⟨u, hu⟩ := Option.isSome_iff_exists.1
        ((@gnggaUpdate_isSome b [] fl hnone).2 (hgngga rfl))
      rw [parseBody, parseGngga_eq, hu]
      dsimp only [Option.map_some, Option.bind_eq_bind, Option.bind_some]
      split
      · rename_i hflag
        have hfixed : (fixGpsInfo fl { st with mgps := u.apply st.mgps }).isSome :=
          fixGpsInfo_isSome.2 (hfix rfl hflag)
        obtain ⟨st', hst'⟩ := Option.isSome_iff_exists.1 hfixed
        rw [hst']
        rfl
      · rfl

/-- What an accepted packet that is harmless does, whatever stands behind it. -/
theorem parseBody_harmless {c₀ m d₁ d₂ : UInt8} {data : Bytes} (fl : FloatOps)
    (hne : 0 ∉ c₀ :: (data ++ [m, d₁, d₂]))
    (hok : m = ascii '*' ∧ [d₁, d₂].map tolower = hex (xorOf data)) (hlen : 5 ≤ data.length)
    (h : Harmless st (c₀ :: (data ++ [m, d₁, d₂]))) :
    ∃ st', ∀ more, parseBody fl st ((c₀ :: (data ++ 0 :: d₁ :: d₂ :: 0 :: more)).drop 7)
      (sentenceOf data) = some st' := by
  have hfour : 4 ≤ (c₀ :: (data ++ [m, d₁, d₂])).length := by simp
  have hsum : ChecksumOk (c₀ :: (data ++ [m, d₁, d₂])) := checksumOk_parts.2 hok
  have hfits := (h.fits (Nat.le_of_succ_le hfour)).2 hfour hsum
  have hfix := h.fixable hfour hsum
  rw [data_parts] at hfits hfix
  obtain ⟨b, rest, hdrop, hb, -, hgnrmc, hgngga⟩ := exists_body hne hok.2 hlen
  have hr : sentenceOf data = some .gnrmc → GnrmcFits b := fun hs =>
    hgnrmc.2 (hfits.1 (sentenceOf_eq_gnrmc_iff.1 hs))
  have hg : sentenceOf data = some .gngga → GnggaFits b := fun hs =>
    hgngga.2 (hfits.2 (sentenceOf_eq_gngga_iff.1 hs))
  have hsome : (parseBody fl st (b ++ [0]) (sentenceOf data)).isSome :=
    parseBody_isSome hb hr hg fun hs => hfix (sentenceOf_eq_gngga_iff.1 hs)
  obtain ⟨st', hst'⟩ := Option.isSome_iff_exists.1 hsome
  refine ⟨st', fun more => ?_⟩
  rw [hdrop, parseBody_append hb hr hg, hst']

end Body

/-- The request of the timer is only served, never made. -/
theorem parsePacket_flagSend {st st' : State} {buf buf' : Bytes} (hflag : st.flagSend = false)
    (h : parsePacket fl st buf = some (buf', st')) : st'.flagSend = false := by
  rw [parsePacket_eq, Option.bind_eq_some_iff] at h
  obtain ⟨⟨mem, sentence⟩, -, h⟩ := h
  rw [Option.map_eq_some_iff] at h
  obtain ⟨st'', hbody, h⟩ := h
  obtain rfl : st'' = st' := congrArg Prod.snd h
  cases sentence with
  | none =>
    obtain rfl := Option.some.inj hbody
    exact hflag
  | some sentence =>
    cases sentence with
    | gnrmc =>
      rw [parseBody, Option.map_eq_some_iff] at hbody
      obtain ⟨gps, -, rfl⟩ := hbody
      exact hflag
    | gngga =>
      rw [parseBody, Option.bind_eq_bind, Option.bind_eq_some_iff] at hbody
      obtain ⟨gps, -, hbody⟩ := hbody
      rw [if_neg (by simp [hflag])] at hbody
      obtain rfl := Option.some.inj hbody
      exact hflag

theorem after_flagSend {st : State} {p : Bytes} (hflag : st.flagSend = false) :
    (after fl st p).flagSend = false := by
  rw [after]
  cases h : parsePacket fl st (p ++ [0]) with
  | none => exact hflag
  | some x => exact parsePacket_flagSend hflag h

end Gps
namespace ReadGps

open CString ByteMemory

variable {env : Env} {g : Globals} {mem : ByteMemory} {buf : Int} {p : Bytes}

/-- The globals behind a call of `parse_packet` for a packet alone. -/
def Globals.after (env : Env) (g : Globals) (p : Bytes) : Globals :=
  ⟨Gps.after env.fl (g.itmerFunc env) p, g.calls + 1⟩

theorem parsePacket_eq (env : Env) (g : Globals) (mem : ByteMemory) (buf : Int) :
    parsePacket env g mem buf = (packetTest mem buf).bind fun tested =>
      (Gps.parseBody env.fl (g.itmerFunc env) (rxFrom tested.1 (buf + 7)) tested.2.sentence).map
        fun st => (⟨st, g.calls + 1⟩, tested.1, tested.2) := by
  rw [parsePacket]
  refine Option.bind_congr fun tested _ => ?_
  obtain ⟨mem, text, sentence⟩ := tested
  cases sentence with
  | none => rfl
  | some sentence =>
    cases sentence with
    | gnrmc =>
      simp only [Gps.parseBody]
      cases Gps.parseGnrmc env.fl (g.itmerFunc env).mgps (rxFrom mem (buf + 7)) <;> rfl
    | gngga =>
      simp only [Gps.parseBody]
      cases Gps.parseGngga env.fl (g.itmerFunc env).mgps (rxFrom mem (buf + 7)) with
      | none => rfl
      | some gps =>
        dsimp only [Option.bind_eq_bind, Option.bind_some]
        split
        · cases Gps.fixGpsInfo env.fl { g.itmerFunc env with mgps := gps } <;> rfl
        · rfl

theorem eq_of_tolower {c : UInt8} (h : tolower c = ascii '0') : c = ascii '0' := by
  grind [tolower, ascii]

/-- The digits of an empty packet lie in front of it. -/
theorem front_of_digits {c d : UInt8} (h : ¬ differ tolower (Gps.crcStr 0) [c, d] = true) :
    d = ascii '0' := by
  have hsame : differ tolower (Gps.crcStr 0) [c, d] = false := Bool.not_eq_true _ ▸ h
  have hmap := (Gps.differ_eq_false_iff (b := [c, d]) (Gps.crcStr_spec 0).2.1 rfl).1 hsame
  exact eq_of_tolower (List.cons.inj (List.cons.inj hmap).2).1.symm

/-- A string without room for a tag is passed on to no parser. -/
theorem packetTest_untagged (hp : mem.slice buf (p.length + 1) = p ++ [0]) (hne : 0 ∉ p)
    (hlen : p.length < 4) (hfront : p ≠ [] ∨ mem (buf - 1) ≠ ascii '0') :
    ∃ mem', packetTest mem buf = some (mem', ⟨p, none⟩) := by
  obtain ⟨htext, hend⟩ := slice_append (y := [0]) hp
  have hnul : mem (buf + p.length) = 0 := (slice_eq_cons hend).1
  have hcstr : mem.cstrAt BUF_SIZE buf = some p := by
    rw [cstrAt_eq (htext.symm ▸ hne) hnul (Nat.lt_trans hlen (by decide)), htext]
  rw [packetTest, hcstr, Option.bind_eq_bind, Option.bind_some]
  dsimp only
  split
  · exact ⟨_, rfl⟩
  split
  · exact ⟨_, rfl⟩
  rename_i hdigits
  have hhead : ∀ tag : Bytes, 0 ∉ tag → tag.length = 5 →
      differ id tag ((mem.set (buf + ((p.length : Int) - 3)) 0).slice (buf + 1) 5) = true := by
    intro tag htag hfive
    rw [← Bool.not_eq_false, Gps.differ_eq_false_iff htag (by rw [slice_length, hfive]),
      List.map_id, List.map_id]
    intro heq
    by_cases hempty : p = []
    · subst hempty
      have hplace : buf + (((([] : Bytes).length : Nat) : Int) - 2) + 1 = buf - 1 := by
        rw [List.length_nil]
        omega
      have hzero := front_of_digits hdigits
      rw [hplace] at hzero
      exact hfront.elim (fun h => h rfl) fun h => h hzero
    · -- the NUL of the packet is among the five bytes
      have hpos := List.length_pos_of_ne_nil hempty
      have hmem : mem.set (buf + ((p.length : Int) - 3)) 0 (buf + p.length) ∈ tag := by
        rw [heq]
        exact mem_slice (by omega) (by omega)
      rw [set_of_ne 0 (by omega), hnul] at hmem
      exact htag hmem
  rw [hhead _ (by decide) rfl, hhead _ (by decide) rfl]
  exact ⟨_, rfl⟩

/-- What `rx_buf` holds from a packet on. -/
theorem rxFrom_packet {t : Bytes} (hbuf : mem.slice buf t.length = t)
    (hroom : buf + t.length ≤ BUF_SIZE) : ∃ more, rxFrom mem buf = t ++ more := by
  obtain ⟨k, hk⟩ := Nat.exists_eq_add_of_le
    (show t.length ≤ ((BUF_SIZE : Int) - buf).toNat by omega)
  rw [rxFrom, hk, slice_add, hbuf]
  exact ⟨_, rfl⟩

theorem rxFrom_add {k : Nat} (hroom : buf + k ≤ BUF_SIZE) :
    rxFrom mem (buf + k) = (rxFrom mem buf).drop k := by
  rw [rxFrom, rxFrom, slice_drop (by omega)]
  congr 1
  omega

/-- `parse_packet` does to a harmless packet in `rx_buf` what it does to the packet alone. -/
theorem parsePacket_harmless (hp : mem.slice buf (p.length + 1) = p ++ [0]) (hne : 0 ∉ p)
    (hbuf : 0 ≤ buf) (hroom : buf + p.length < BUF_SIZE)
    (hfront : p ≠ [] ∨ mem (buf - 1) ≠ ascii '0') (h : Gps.Harmless (g.itmerFunc env) p) :
    ∃ mem' sentence, parsePacket env g mem buf = some (g.after env p, mem', ⟨p, sentence⟩) := by
  by_cases hlen : p.length < 4
  · obtain ⟨mem', htest⟩ := packetTest_untagged hp hne hlen hfront
    refine ⟨mem', none, ?_⟩
    rw [parsePacket_eq, htest, Globals.after, Gps.after_short hne hlen]
    rfl
  have hlen4 : 4 ≤ p.length := Nat.le_of_not_lt hlen
  obtain ⟨c₀, data, m, d₁, d₂, rfl⟩ := Gps.exists_parts hlen4
  have hplen : (c₀ :: (data ++ [m, d₁, d₂])).length = data.length + 4 := by simp
  rw [hplen] at hp hroom
  rw [Gps.parts_append] at hp
  have hsize : data.length + 4 < BUF_SIZE := by omega
  rw [parsePacket_eq, Gps.packetTest_memory_parts hp hne hsize, Globals.after, Gps.after,
    Gps.parsePacket_eq, Gps.parts_append, Gps.packetTest_parts hne]
  by_cases hok : m = ascii '*' ∧ [d₁, d₂].map tolower = Gps.hex (Gps.xorOf data)
  · rw [if_pos hok, if_pos hok, Option.bind_some, Option.bind_some]
    by_cases htag : Gps.sentenceOf data = none
    · rw [htag]
      exact ⟨_, none, rfl⟩
    have hfive : 5 ≤ data.length := Gps.five_le_of_sentenceOf htag
    obtain ⟨st', hst'⟩ := Gps.parseBody_harmless env.fl hne hok hfive h
    have hpacket : (mem.set (buf + (data.length + 1 : Nat)) 0).slice buf (data.length + 5) =
        c₀ :: (data ++ 0 :: d₁ :: d₂ :: [0]) := by
      rw [slice_set, hp, List.set_cons_succ, List.set_append_right _ _ (Nat.le_refl _),
        Nat.sub_self, List.set_cons_zero]
    obtain ⟨more, hmore⟩ : ∃ more, rxFrom (mem.set (buf + (data.length + 1 : Nat)) 0) buf =
        c₀ :: (data ++ 0 :: d₁ :: d₂ :: [0]) ++ more :=
      rxFrom_packet (by simpa using hpacket) (by simp; omega)
    have hbody : rxFrom (mem.set (buf + (data.length + 1 : Nat)) 0) (buf + 7) =
        (c₀ :: (data ++ 0 :: d₁ :: d₂ :: 0 :: more)).drop 7 := by
      rw [show (7 : Int) = (7 : Nat) from rfl, rxFrom_add (by omega), hmore]
      simp
    rw [hbody, hst', hst' []]
    exact ⟨_, _, rfl⟩
  · rw [if_neg hok, if_neg hok]
    exact ⟨mem, none, rfl⟩

/-- One after the other the packets are harmless. -/
def Harmless (env : Env) : Globals → List Bytes → Prop
  | _, [] => True
  | g, p :: ps => Gps.Harmless (g.itmerFunc env) p ∧ Harmless env (g.after env p) ps

/-- The globals behind the calls of `parse_packet` for packets alone. -/
def Globals.afterAll (env : Env) (g : Globals) (ps : List Bytes) : Globals :=
  ps.foldl (Globals.after env) g

theorem Globals.afterAll_cons (p : Bytes) (ps : List Bytes) :
    g.afterAll env (p :: ps) = (g.after env p).afterAll env ps := rfl

theorem Globals.afterAll_append (ps qs : List Bytes) :
    g.afterAll env (ps ++ qs) = (g.afterAll env ps).afterAll env qs := List.foldl_append

theorem harmless_append (ps qs : List Bytes) :
    Harmless env g (ps ++ qs) ↔ Harmless env g ps ∧ Harmless env (g.afterAll env ps) qs := by
  induction ps generalizing g with
  | nil => exact ⟨fun h => ⟨trivial, h⟩, fun h => h.2⟩
  | cons p ps ih => rw [List.cons_append, Harmless, Harmless, ih, Globals.afterAll_cons, and_assoc]

/-- Strings that are too short for the test. -/
theorem harmless_of_short {ps : List Bytes} (h : ∀ p ∈ ps, p.length < 3) : Harmless env g ps := by
  induction ps generalizing g with
  | nil => trivial
  | cons p ps ih =>
    have hshort := h p List.mem_cons_self
    exact ⟨⟨fun hlen => absurd hlen (by omega), fun hlen => absurd hlen (by omega)⟩,
      ih fun q hq => h q (List.mem_cons_of_mem p hq)⟩

/-- While the timer is silent, packets are harmless if they have the columns that their parsers look
for. -/
theorem harmless_of_fits {fl : Gps.FloatOps} {ps : List Bytes} (hflag : g.gps.flagSend = false)
    (hfits : ∀ p ∈ ps, 3 ≤ p.length → Gps.Fits p) : Harmless ⟨fl, fun _ => false⟩ g ps := by
  induction ps generalizing g with
  | nil => trivial
  | cons p ps ih =>
    have hfirst : Gps.Harmless g.gps p := by
      refine ⟨hfits p List.mem_cons_self, fun _ _ _ hsend => ?_⟩
      rw [hflag] at hsend
      exact absurd hsend Bool.false_ne_true
    exact ⟨hfirst, ih (Gps.after_flagSend hflag) fun q hq => hfits q (List.mem_cons_of_mem p hq)⟩

end ReadGps
end CFunction
