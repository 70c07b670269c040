import CFunction.Uart.Proofs.PacketReads
import Mathlib.Data.List.TakeWhile

/-!
# `parse_buf` on the unparsed bytes

`split` says what the second loop of `parse_buf` does with the bytes from `istart` on, without
the memory: which strings it hands to `parse_packet` and which bytes it leaves for the next call.
The packet test writes one NUL in front of the byte that the loop stands on, so that it never
touches a byte that is still to be parsed.
-/

namespace CFunction
namespace ReadGps

open CString ByteMemory

/-- `cur` are the bytes from `istart` to `i`. -/
def split (cur : Bytes) : Bytes → List Bytes × Bytes
  | [] => ([], cur)
  | b :: rest =>
    if b = cr then
      match rest with
      | [] => ([cur], [])
      | c :: rest =>
        if c = lf then
          match rest with
          | [] => ([cur], [])
          | d :: rest => (cur :: (split [d] rest).1, (split [d] rest).2)
        else (cur :: (split [c] rest).1, (split [c] rest).2)
    else split (cur ++ [b]) rest

theorem split_of_ne {b : UInt8} (hb : b ≠ cr) (cur rest : Bytes) :
    split cur (b :: rest) = split (cur ++ [b]) rest := by
  rw [split.eq_def]
  exact if_neg hb

theorem split_cr {c : UInt8} (hc : c ≠ lf) (cur rest : Bytes) :
    split cur (cr :: c :: rest) = (cur :: (split [c] rest).1, (split [c] rest).2) := by
  rw [split.eq_def]
  simp only [if_true, if_neg hc]

theorem split_cr_lf (cur rest : Bytes) (d : UInt8) :
    split cur (cr :: lf :: d :: rest) = (cur :: (split [d] rest).1, (split [d] rest).2) := by
  rw [split.eq_def]
  simp only [if_true]

/-- The bytes from the first `$` on. -/
def fromDollar (bytes : Bytes) : Bytes := bytes.dropWhile (· ≠ dollar)

/-- A whole call: nothing is kept unless there is a `$`. -/
def parse (bytes : Bytes) : List Bytes × Bytes :=
  match fromDollar bytes with
  | [] => ([], [])
  | c :: rest => split [c] rest

theorem fromDollar_of_notMem {bytes : Bytes} (h : dollar ∉ bytes) : fromDollar bytes = [] := by
  rw [fromDollar, List.dropWhile_eq_nil_iff]
  intro b hb
  simpa using fun hd : b = dollar => h (hd ▸ hb)

theorem fromDollar_append {junk : Bytes} (h : dollar ∉ junk) (rest : Bytes) :
    fromDollar (junk ++ dollar :: rest) = dollar :: rest :=
  dropWhile_ne_append h rest

/-- A list holds no `$`, or `parse` begins at its first one. -/
theorem parse_cases (bytes : Bytes) :
    (dollar ∉ bytes ∧ parse bytes = ([], [])) ∨
      ∃ junk rest, dollar ∉ junk ∧ bytes = junk ++ dollar :: rest ∧
        parse bytes = split [dollar] rest := by
  by_cases h : dollar ∈ bytes
  · obtain ⟨junk, rest, rfl, hjunk⟩ := List.eq_append_cons_of_mem h
    right
    refine ⟨junk, rest, hjunk, rfl, ?_⟩
    simp only [parse, fromDollar_append hjunk rest]
  · left
    refine ⟨h, ?_⟩
    simp only [parse, fromDollar_of_notMem h]

/-- The packet test gets the string in front of the NUL at `buf + n` and writes in front of
that NUL only. -/
theorem packetTest_eq {mem : ByteMemory} {buf : Int} {n : Nat} (hne : 0 ∉ mem.slice buf n)
    (hnul : mem (buf + n) = 0) (hn : n < BUF_SIZE) :
    ∃ mem' sentence, packetTest mem buf = some (mem', ⟨mem.slice buf n, sentence⟩) ∧
      ∀ x, buf + n ≤ x → mem' x = mem x := by
  have hframe : ∀ x, buf + n ≤ x → mem.set (buf + ((n : Int) - 3)) 0 x = mem x := by
    intro x hx
    exact set_of_ne 0 (by omega)
  unfold packetTest
  rw [cstrAt_eq hne hnul hn]
  simp only [Option.bind_eq_bind, Option.bind_some, slice_length]
  split
  · exact ⟨mem, none, rfl, fun x _ => rfl⟩
  · split
    · exact ⟨mem, none, rfl, fun x _ => rfl⟩
    · split
      · exact ⟨_, some .gnrmc, rfl, hframe⟩
      · split
        · exact ⟨_, some .gngga, rfl, hframe⟩
        · exact ⟨_, none, rfl, hframe⟩

/-- The string that starts at the first of the bytes when a NUL follows them. -/
def stringIn (bytes : Bytes) : Bytes := cstr (bytes ++ [0])

theorem stringIn_of_notMem {bytes : Bytes} (h : 0 ∉ bytes) : stringIn bytes = bytes :=
  cstr_append_nul [] h

theorem stringIn_cons_ne_nil {c : UInt8} (h : c ≠ 0) (t : Bytes) : stringIn (c :: t) ≠ [] := by
  rw [stringIn, cstr, List.cons_append, List.takeWhile_cons_of_pos (by simpa using h)]
  exact List.cons_ne_nil _ _

/-- Where the string ends that starts at `buf`, when a NUL stands at `buf + n`. -/
theorem slice_stringIn {mem : ByteMemory} {buf : Int} {n : Nat} (hnul : mem (buf + n) = 0) :
    0 ∉ stringIn (mem.slice buf n) ∧ (stringIn (mem.slice buf n)).length ≤ n ∧
      mem.slice buf ((stringIn (mem.slice buf n)).length + 1) =
        stringIn (mem.slice buf n) ++ [0] := by
  have hall : mem.slice buf n ++ [0] = mem.slice buf (n + 1) := by
    rw [slice_add, slice, slice, hnul]
  obtain ⟨hne, rest, hrest⟩ : Contains (mem.slice buf (n + 1)) (stringIn (mem.slice buf n)) := by
    rw [stringIn, hall]
    exact contains_of_mem (hall ▸ List.mem_append_right _ (List.mem_singleton_self 0))
  generalize stringIn (mem.slice buf n) = s at hne hrest
  -- the first NUL stands behind `s`
  have hlen : n + 1 = s.length + (rest.length + 1) := by
    rw [← List.length_cons (a := 0), ← List.length_append, ← hrest, slice_length]
  refine ⟨hne, by omega, ?_⟩
  rw [← slice_take (show s.length + 1 ≤ n + 1 by omega), hrest, List.append_cons]
  exact List.take_left' (by simp)

section Packet

variable {env : Env} {g g' : Globals} {mem mem' : ByteMemory} {buf : Int} {n : Nat}

/-- What a call of `parse_packet` that returns has got, when a NUL stands at `buf + n`, and that it
leaves this NUL and what is behind it as they are. -/
theorem parsePacket_stringIn {packet : Packet} (hnul : mem (buf + n) = 0) (hn : n < BUF_SIZE)
    (h : parsePacket env g mem buf = some (g', mem', packet)) :
    packet.text = stringIn (mem.slice buf n) ∧ ∀ x, buf + n ≤ x → mem' x = mem x := by
  obtain ⟨hne, hle, hslice⟩ := slice_stringIn hnul
  obtain ⟨htext, hend⟩ := slice_append (y := [0]) hslice
  obtain ⟨mem₁, sentence, htest, hframe⟩ :=
    packetTest_eq (htext.symm ▸ hne) (slice_eq_cons hend).1 (by omega)
  rw [parsePacket_eq, htest, Option.bind_some, Option.map_eq_some_iff] at h
  obtain ⟨st, -, hsome⟩ := h
  injection hsome with _ hsome
  injection hsome with hmem hpacket
  rw [← hmem, ← hpacket]
  exact ⟨htext, fun x hx => hframe x (by omega)⟩

/-- It returns when the packet is harmless. -/
theorem parsePacket_returns (hnul : mem (buf + n) = 0) (hbuf : 0 ≤ buf)
    (hroom : buf + n < BUF_SIZE)
    (hfront : stringIn (mem.slice buf n) ≠ [] ∨ mem (buf - 1) ≠ ascii '0')
    (h : Gps.Harmless (g.itmerFunc env) (stringIn (mem.slice buf n))) :
    ∃ mem' packet, parsePacket env g mem buf =
      some (g.after env (stringIn (mem.slice buf n)), mem', packet) := by
  obtain ⟨hne, hle, hslice⟩ := slice_stringIn hnul
  obtain ⟨mem', sentence, hpacket⟩ := parsePacket_harmless hslice hne hbuf (by omega) hfront h
  exact ⟨mem', _, hpacket⟩

end Packet

theorem findDollar_eq {mem : ByteMemory} {buf : Int} (rest : Bytes) : ∀ i : Int,
    mem.slice (buf + i) rest.length = rest →
    findDollar mem buf (i + rest.length) rest.length i =
      i + (rest.takeWhile (· ≠ dollar)).length := by
  induction rest with
  | nil => intro i _; simp [findDollar]
  | cons b rest ih =>
    intro i hslice
    obtain ⟨hb, -, htl⟩ := slice_eq_cons hslice
    rw [List.length_cons] at htl ⊢
    rw [findDollar, hb]
    by_cases hd : b = dollar
    · simp [hd]
    · rw [if_pos ⟨hd, by omega⟩]
      have hnext := ih (i + 1) (by rw [← Int.add_assoc]; exact htl)
      rw [show i + ((rest.length + 1 : Nat) : Int) = i + 1 + rest.length by omega, hnext]
      simp only [List.takeWhile_cons, ne_eq, hd, not_false_eq_true, decide_true, if_true,
        List.length_cons]
      omega

theorem splitLoop_done {env : Env} {buf len i istart : Int} (h : len ≤ i) (fuel : Nat)
    (g : Globals) (mem : ByteMemory) (out : List Packet) :
    splitLoop env buf len fuel g mem i istart out = some (g, mem, istart, out) := by
  cases fuel with
  | zero => rw [splitLoop, if_neg (by omega)]
  | succ fuel => rw [splitLoop, if_neg (by omega)]

/-- `mem`, `istart` and `packets` are what `spec` says: the strings handed on, each up to its first
NUL, and the bytes from `istart` to `len`. -/
structure Splits (buf len : Int) (spec : List Bytes × Bytes) (mem : ByteMemory) (istart : Int)
    (packets : List Packet) : Prop where
  start : istart = len - spec.2.length
  texts : packets.map Packet.text = spec.1.map stringIn
  rest : mem.slice (buf + istart) spec.2.length = spec.2

/-- The loop stands at `i`: `cur` lies between `istart` and `i`, and `rest` from `i` on. A string
that begins with a NUL has no digit in front of it. -/
structure Scans (buf len : Int) (cur rest : Bytes) (mem : ByteMemory) (i istart : Int) : Prop where
  place : i = istart + cur.length
  ends : len = i + rest.length
  slice : mem.slice (buf + istart) (cur.length + rest.length) = cur ++ rest
  low : 0 ≤ buf + istart
  high : buf + len < BUF_SIZE
  front : ∃ c t, cur = c :: t ∧ (c ≠ 0 ∨ mem (buf + istart - 1) ≠ ascii '0')

/-- What `result` says where it is there, and that it is there when the packets are harmless. -/
structure Outcome (env : Env) (buf len : Int) (g : Globals) (out : List Packet)
    (spec : List Bytes × Bytes) (result : Option (Globals × ByteMemory × Int × List Packet)) :
    Prop where
  splits : ∀ g' mem istart out', result = some (g', mem, istart, out') →
    ∃ packets, out' = out ++ packets ∧ Splits buf len spec mem istart packets
  returns : Harmless env g (spec.1.map stringIn) → ∃ mem istart out',
    result = some (g.afterAll env (spec.1.map stringIn), mem, istart, out')

section Outcome

variable {env : Env} {buf len : Int} {g g' : Globals} {out : List Packet} {cur left : Bytes}
  {texts : List Bytes} {packet : Packet} {mem : ByteMemory}
  {result : Option (Globals × ByteMemory × Int × List Packet)}

/-- A call that does not return. -/
theorem Outcome.crash (h : ¬ Gps.Harmless (g.itmerFunc env) (stringIn cur)) :
    Outcome env buf len g out (cur :: texts, left) none :=
  ⟨fun _ _ _ _ hnone => absurd hnone (by simp), fun hall => absurd hall.1 h⟩

/-- One more packet in front of what the rest of the loop hands on. -/
theorem Outcome.cons (h : Outcome env buf len g' (out ++ [packet]) (texts, left) result)
    (htext : packet.text = stringIn cur)
    (hg : Gps.Harmless (g.itmerFunc env) (stringIn cur) → g' = g.after env (stringIn cur)) :
    Outcome env buf len g out (cur :: texts, left) result := by
  refine ⟨fun g'' mem istart out' hresult => ?_, fun hall => ?_⟩
  · obtain ⟨packets, rfl, hsplits⟩ := h.splits g'' mem istart out' hresult
    refine ⟨packet :: packets, by simp, hsplits.start, ?_, hsplits.rest⟩
    rw [List.map_cons, hsplits.texts, htext, List.map_cons]
  · obtain ⟨hfirst, hrest⟩ := hall
    rw [← hg hfirst] at hrest
    obtain ⟨mem, istart, out', hresult⟩ := h.returns hrest
    refine ⟨mem, istart, out', ?_⟩
    rw [hresult, List.map_cons, Globals.afterAll_cons, ← hg hfirst]

/-- The end of the buffer. -/
theorem Outcome.done {istart : Int} (h : Splits buf len ([], left) mem istart []) :
    Outcome env buf len g out ([], left) (some (g, mem, istart, out)) := by
  refine ⟨fun g' mem' istart' out' hresult => ?_, fun _ => ⟨mem, istart, out, rfl⟩⟩
  injection hresult with hresult
  injection hresult with _ hresult
  injection hresult with hmem hresult
  injection hresult with hstart hout
  rw [← hmem, ← hstart, ← hout]
  exact ⟨[], (List.append_nil out).symm, h⟩

end Outcome

section Scans

variable {env : Env} {g : Globals} {buf len i istart k : Int} {cur rest : Bytes} {b c : UInt8}
  {mem : ByteMemory}

theorem Scans.cur_slice (h : Scans buf len cur rest mem i istart) :
    mem.slice (buf + istart) cur.length = cur := by
  have hslice := h.slice
  rw [slice_add] at hslice
  exact (List.append_inj hslice (slice_length _ _)).1

theorem Scans.rest_slice (h : Scans buf len cur rest mem i istart) :
    mem.slice (buf + i) rest.length = rest := by
  have hslice := h.slice
  have hplace : buf + istart + cur.length = buf + i := by rw [h.place, Int.add_assoc]
  rw [slice_add, hplace] at hslice
  exact (List.append_inj hslice (slice_length _ _)).2

/-- The bytes that are left once `i` has reached the end. -/
theorem Scans.done (h : Scans buf len cur [] mem i istart) :
    Splits buf len ([], cur) mem istart [] := by
  have hplace := h.place
  have hends := h.ends
  rw [List.length_nil] at hends
  refine ⟨?_, rfl, h.cur_slice⟩
  dsimp only
  omega

/-- A byte that is no `'\r'`. -/
theorem Scans.skip (h : Scans buf len cur (b :: rest) mem i istart) :
    Scans buf len (cur ++ [b]) rest mem (i + 1) istart := by
  have hplace := h.place
  have hends := h.ends
  have hlength : (cur ++ [b]).length + rest.length = cur.length + (b :: rest).length := by
    simp only [List.length_append, List.length_cons, List.length_nil]
    omega
  have hbytes : cur ++ [b] ++ rest = cur ++ b :: rest := List.append_cons cur b rest |>.symm
  obtain ⟨c, t, rfl, hc⟩ := h.front
  rw [List.length_cons] at hends
  refine ⟨?_, by omega, ?_, h.low, h.high, c, t ++ [b], rfl, hc⟩
  · rw [List.length_append, List.length_singleton]
    omega
  · rw [hlength, hbytes]
    exact h.slice

/-- The scan after a packet: `istart` stands on `c`, and `i` behind it. -/
theorem Scans.restart (hends : len = k + (rest.length + 1 : Nat))
    (hslice : mem.slice (buf + k) (rest.length + 1) = c :: rest) (hlow : 0 ≤ buf + k)
    (hhigh : buf + len < BUF_SIZE) (hfront : mem (buf + k - 1) ≠ ascii '0') :
    Scans buf len [c] rest mem (k + 1) k := by
  refine ⟨rfl, by omega, ?_, hlow, hhigh, c, [], rfl, Or.inr hfront⟩
  rw [List.length_singleton, Nat.add_comm]
  exact hslice

/-- The round of the loop that stands on a `'\r'`. -/
theorem Scans.cr (h : Scans buf len cur (cr :: rest) mem i istart) (env : Env) (g : Globals) :
    (¬ Gps.Harmless (g.itmerFunc env) (stringIn cur) ∧
      ∀ fuel out, splitLoop env buf len (fuel + 1) g mem i istart out = none) ∨
    ∃ g' mem' packet, packet.text = stringIn cur ∧
      (Gps.Harmless (g.itmerFunc env) (stringIn cur) → g' = g.after env (stringIn cur)) ∧
      mem'.slice (buf + (i + 1)) rest.length = rest ∧ mem' (buf + i) = 0 ∧
      ∀ fuel out, splitLoop env buf len (fuel + 1) g mem i istart out =
        if i + 1 < len ∧ mem' (buf + (i + 1)) = lf then
          splitLoop env buf len fuel g' mem' (i + 1 + 1 + 1) (i + 1 + 1) (out ++ [packet])
        else splitLoop env buf len fuel g' mem' (i + 1 + 1) (i + 1) (out ++ [packet]) := by
  have hplace := h.place
  have hends := h.ends
  have hlow := h.low
  have hhigh := h.high
  rw [List.length_cons] at hends
  obtain ⟨hcr, -, hrest⟩ := slice_eq_cons h.rest_slice
  let marked := mem.set (buf + i) 0
  have hmarked : marked.slice (buf + istart) cur.length = cur := by
    refine Eq.trans (slice_congr ?_) h.cur_slice
    intro x _ hx
    exact set_of_ne 0 (by omega)
  have hnul : marked (buf + istart + cur.length) = 0 := by
    have hpos : buf + istart + cur.length = buf + i := by omega
    rw [hpos]
    exact set_self _ _
  have hsplit : ∀ fuel out, splitLoop env buf len (fuel + 1) g mem i istart out =
      (parsePacket env g marked (buf + istart)).bind fun x =>
        if i + 1 < len ∧ x.2.1 (buf + (i + 1)) = lf then
          splitLoop env buf len fuel x.1 x.2.1 (i + 1 + 1 + 1) (i + 1 + 1) (out ++ [x.2.2])
        else splitLoop env buf len fuel x.1 x.2.1 (i + 1 + 1) (i + 1) (out ++ [x.2.2]) := by
    intro fuel out
    rw [splitLoop, if_pos (by omega), if_pos hcr]
    rfl
  have hreturns : Gps.Harmless (g.itmerFunc env) (stringIn cur) → ∃ mem' packet,
      parsePacket env g marked (buf + istart) =
        some (g.after env (stringIn cur), mem', packet) := by
    intro hharmless
    have hfront : stringIn cur ≠ [] ∨ marked (buf + istart - 1) ≠ ascii '0' := by
      obtain ⟨c, t, rfl, hc | hc⟩ := h.front
      · exact Or.inl (stringIn_cons_ne_nil hc t)
      · refine Or.inr ?_
        rwa [show marked (buf + istart - 1) = mem (buf + istart - 1) from
          set_of_ne 0 (by simp only [List.length_cons] at hplace; omega)]
    have hrun := @parsePacket_returns env g _ _ _ hnul hlow (by omega)
    rw [hmarked] at hrun
    exact hrun hfront hharmless
  cases hpacket : parsePacket env g marked (buf + istart) with
  | none =>
    left
    refine ⟨fun hharmless => ?_, fun fuel out => by rw [hsplit, hpacket]; rfl⟩
    obtain ⟨mem', packet, hsome⟩ := hreturns hharmless
    rw [hpacket] at hsome
    cases hsome
  | some after =>
    right
    obtain ⟨g', mem', packet⟩ := after
    obtain ⟨htext, hframe⟩ := parsePacket_stringIn hnul (by omega) hpacket
    rw [hmarked] at htext
    refine ⟨g', mem', packet, htext, fun hharmless => ?_, ?_, ?_, fun fuel out => ?_⟩
    · obtain ⟨mem'', packet', hsome⟩ := hreturns hharmless
      rw [hpacket] at hsome
      exact congrArg Prod.fst (Option.some.inj hsome)
    · calc mem'.slice (buf + (i + 1)) rest.length
          = mem.slice (buf + (i + 1)) rest.length := by
            apply slice_congr
            intro x hx _
            rw [hframe x (by omega)]
            exact set_of_ne 0 (by omega)
        _ = rest := by
            rw [← Int.add_assoc]
            exact hrest
    · rw [hframe _ (by omega)]
      exact set_self _ _
    · rw [hsplit, hpacket]
      rfl

end Scans

/-- The loop over the rest of the buffer, by induction on what `split` does. -/
theorem splitLoop_outcome (env : Env) (buf len : Int) (cur rest : Bytes) : ∀ (fuel : Nat)
    (g : Globals) (mem : ByteMemory) (i istart : Int) (out : List Packet),
    Scans buf len cur rest mem i istart → rest.length ≤ fuel →
    Outcome env buf len g out (split cur rest)
      (splitLoop env buf len fuel g mem i istart out) := by
  induction cur, rest using split.induct with
  | case1 cur =>
    intro fuel g mem i istart out hscan _
    have hends := hscan.ends
    rw [List.length_nil] at hends
    rw [splitLoop_done (by omega), split]
    exact Outcome.done hscan.done
  | case2 cur =>
    intro fuel g mem i istart out hscan hfuel
    obtain ⟨fuel, rfl⟩ := Nat.exists_eq_add_one.2 hfuel
    have hspec : split cur [cr] = ([cur], []) := by rw [split.eq_def]; rfl
    rw [hspec]
    rcases hscan.cr env g with ⟨hcrash, hnone⟩ | ⟨g', mem', packet, htext, hg, -, -, hloop⟩
    · rw [hnone]
      exact Outcome.crash hcrash
    · obtain rfl : len = i + 1 := hscan.ends
      rw [hloop, if_neg (by omega), splitLoop_done (by omega)]
      exact (Outcome.done ⟨by simp, rfl, rfl⟩).cons htext hg
  | case3 cur =>
    intro fuel g mem i istart out hscan hfuel
    obtain ⟨fuel, rfl⟩ := Nat.exists_eq_add_one.2 (Nat.lt_of_lt_of_le (by simp) hfuel)
    have hspec : split cur [cr, lf] = ([cur], []) := by rw [split.eq_def]; rfl
    rw [hspec]
    rcases hscan.cr env g with ⟨hcrash, hnone⟩ | ⟨g', mem', packet, htext, hg, hrest, -, hloop⟩
    · rw [hnone]
      exact Outcome.crash hcrash
    · obtain rfl : len = i + 2 := hscan.ends
      have hlf := (slice_eq_cons hrest).1
      rw [hloop, if_pos ⟨by omega, hlf⟩, splitLoop_done (by omega)]
      exact (Outcome.done ⟨by simp; omega, rfl, rfl⟩).cons htext hg
  | case4 cur d rest ih =>
    intro fuel g mem i istart out hscan hfuel
    obtain ⟨fuel, rfl⟩ := Nat.exists_eq_add_one.2 (Nat.lt_of_lt_of_le (by simp) hfuel)
    rw [split_cr_lf]
    rcases hscan.cr env g with ⟨hcrash, hnone⟩ | ⟨g', mem', packet, htext, hg, hrest, -, hloop⟩
    · rw [hnone]
      exact Outcome.crash hcrash
    · obtain ⟨hlf, -, hnext⟩ := slice_eq_cons hrest
      have hends := hscan.ends
      have hplace := hscan.place
      have hlow := hscan.low
      simp only [List.length_cons] at hends hfuel
      rw [hloop, if_pos ⟨by omega, hlf⟩]
      have hfront : mem' (buf + (i + 1 + 1) - 1) ≠ ascii '0' := by
        rw [show buf + (i + 1 + 1) - 1 = buf + (i + 1) by omega, hlf]
        decide
      exact (ih fuel g' mem' _ _ (out ++ [packet]) (Scans.restart (by omega)
        (by rw [← Int.add_assoc]; exact hnext) (by omega) hscan.high hfront) (by omega)).cons htext
          hg
  | case5 cur c rest hc ih =>
    intro fuel g mem i istart out hscan hfuel
    obtain ⟨fuel, rfl⟩ := Nat.exists_eq_add_one.2 (Nat.lt_of_lt_of_le (by simp) hfuel)
    rw [split_cr hc]
    rcases hscan.cr env g with ⟨hcrash, hnone⟩ | ⟨g', mem', packet, htext, hg, hrest, hnul, hloop⟩
    · rw [hnone]
      exact Outcome.crash hcrash
    · have hcc := (slice_eq_cons hrest).1
      have hends := hscan.ends
      have hplace := hscan.place
      have hlow := hscan.low
      simp only [List.length_cons] at hends hfuel
      rw [hloop, if_neg (by rw [hcc]; exact fun h => hc h.2)]
      have hfront : mem' (buf + (i + 1) - 1) ≠ ascii '0' := by
        rw [show buf + (i + 1) - 1 = buf + i by omega, hnul]
        decide
      exact (ih fuel g' mem' _ _ (out ++ [packet]) (Scans.restart (by omega) hrest (by omega)
        hscan.high hfront) (by omega)).cons htext hg
  | case6 cur b rest hb ih =>
    intro fuel g mem i istart out hscan hfuel
    obtain ⟨fuel, rfl⟩ := Nat.exists_eq_add_one.2 (Nat.lt_of_lt_of_le (by simp) hfuel)
    have hbi := (slice_eq_cons hscan.rest_slice).1
    have hends := hscan.ends
    rw [List.length_cons] at hends hfuel
    rw [splitLoop, if_pos (by omega), if_neg (by rw [hbi]; exact hb), split_of_ne hb]
    exact ih fuel g mem _ _ out hscan.skip (Nat.le_of_succ_le_succ hfuel)

/-- `parse_buf` on the `bytes` from `buf` on. -/
theorem parseBuf_outcome (env : Env) (g : Globals) {mem : ByteMemory} {buf : Int} {bytes : Bytes}
    (hslice : mem.slice buf bytes.length = bytes) (hbuf : 0 ≤ buf)
    (hroom : buf + bytes.length < BUF_SIZE) :
    Outcome env buf bytes.length g [] (parse bytes) (parseBuf env g mem buf bytes.length) := by
  have hfind := findDollar_eq bytes 0 (by simpa using hslice)
  rw [Int.zero_add, Int.zero_add] at hfind
  simp only [parseBuf, Int.toNat_natCast, hfind]
  rcases parse_cases bytes with ⟨hno, hparse⟩ | ⟨junk, rest, hjunk, rfl, hparse⟩
  · have hall : bytes.takeWhile (· ≠ dollar) = bytes := by
      rw [List.takeWhile_eq_self_iff]
      intro b hb
      simpa using fun hd : b = dollar => hno (hd ▸ hb)
    rw [hall, if_pos (Int.le_refl _), hparse]
    exact Outcome.done ⟨by simp, rfl, rfl⟩
  · have hskip : (junk ++ dollar :: rest).takeWhile (· ≠ dollar) = junk :=
      takeWhile_ne_append hjunk rest
    rw [List.length_append, List.length_cons, slice_add] at hslice
    have hsuffix := (List.append_inj hslice (slice_length _ _)).2
    have hdollar := (slice_eq_cons hsuffix).1
    simp only [List.length_append, List.length_cons] at hroom
    have hscan : Scans buf (junk ++ dollar :: rest).length [dollar] rest mem (junk.length + 1)
        junk.length := by
      refine ⟨rfl, ?_, ?_, by omega, ?_, dollar, [], rfl, Or.inl (by decide)⟩
      · simp only [List.length_append, List.length_cons]
        omega
      · rw [List.length_singleton, Nat.add_comm]
        exact hsuffix
      · simp only [List.length_append, List.length_cons]
        omega
    have hfuel : (((junk ++ dollar :: rest).length : Int) - junk.length).toNat =
        rest.length + 1 := by
      simp only [List.length_append, List.length_cons]
      omega
    rw [hskip, if_neg (by simp only [List.length_append, List.length_cons]; omega), hparse, hfuel,
      splitLoop, if_pos (by simp only [List.length_append, List.length_cons]; omega),
      if_neg (by rw [hdollar]; decide)]
    exact splitLoop_outcome env buf _ [dollar] rest rest.length g mem _ _ [] hscan (Nat.le_refl _)

/-- What is handed on is part of the bytes. -/
theorem subset_split {cur rest t : Bytes} (ht : t ∈ (split cur rest).1) : t ⊆ cur ++ rest := by
  induction cur, rest using split.induct with
  | case1 cur =>
    rw [split] at ht
    exact absurd ht List.not_mem_nil
  | case2 cur =>
    rw [split.eq_def] at ht
    rw [List.mem_singleton.1 ht]
    exact List.subset_append_left cur _
  | case3 cur =>
    rw [split.eq_def] at ht
    rw [List.mem_singleton.1 ht]
    exact List.subset_append_left cur _
  | case4 cur d rest ih =>
    rw [split_cr_lf] at ht
    rcases List.mem_cons.1 ht with rfl | ht
    · exact List.subset_append_left t _
    · refine List.Subset.trans (ih ht) (List.subset_append_of_subset_right cur ?_)
      exact List.subset_cons_of_subset cr (List.subset_cons_self lf (d :: rest))
  | case5 cur c rest hc ih =>
    rw [split_cr hc] at ht
    rcases List.mem_cons.1 ht with rfl | ht
    · exact List.subset_append_left t _
    · exact List.Subset.trans (ih ht)
        (List.subset_append_of_subset_right cur (List.subset_cons_self cr (c :: rest)))
  | case6 cur b rest hb ih =>
    rw [split_of_ne hb] at ht
    rw [List.append_cons]
    exact ih ht

theorem subset_parse {bytes t : Bytes} (ht : t ∈ (parse bytes).1) : t ⊆ fromDollar bytes := by
  rw [parse] at ht
  cases hfrom : fromDollar bytes with
  | nil =>
    rw [hfrom] at ht
    exact absurd ht List.not_mem_nil
  | cons c rest =>
    rw [hfrom] at ht
    exact subset_split ht

/-- Without NULs behind the first `$` the strings handed on are whole. Bytes in front of it may be
anything. -/
theorem map_stringIn_parse {bytes : Bytes} (hne : 0 ∉ fromDollar bytes) :
    (parse bytes).1.map stringIn = (parse bytes).1 := by
  have hid : (parse bytes).1.map stringIn = (parse bytes).1.map id :=
    List.map_congr_left fun t ht => stringIn_of_notMem fun h => hne (subset_parse ht h)
  rw [hid, List.map_id]

end ReadGps
end CFunction
