import CFunction.Uart.Proofs.Columns
import CFunction.Uart.Proofs.PacketTest

/-!
# Sentences with too few columns

Which packets the parsers can read without leaving them. The scans for a comma stop inside the
packet exactly when it has the commas, and nothing else in a packet stops them.
-/

namespace CFunction
namespace Gps

open CString Fields ReadGps

variable {b rest t : Bytes} {fl : FloatOps}

/-- The packet and its NUL are all that `parse_packet` and the sentence parsers touch, for
whatever is in `mgps`. -/
def StaysInside (s : Bytes) : Prop :=
  ∀ (fl : FloatOps) (gps : GpsInfo), ∃ buf sentence, packetTest (s ++ [0]) = some (buf, sentence) ∧
    (sentence = some .gnrmc → (parseGnrmc fl gps (buf.drop 7)).isSome) ∧
    (sentence = some .gngga → (parseGngga fl gps (buf.drop 7)).isSome)

/-- What `parse_gnrmc` can read: behind the first `A,` there are six more commas, and the bytes
in front of it fit into `date_day` when they are copied. -/
def GnrmcFits (body : Bytes) : Prop :=
  ∀ strx, strstr [ascii 'A', comma] body = some strx →
    (body.head? = some comma ∨ toSize ((strx : Int) - 1) ≤ 16) ∧
      6 ≤ (body.drop (strx + 2)).count comma

/-- What `parse_gngga` can read: there are five commas, and three more unless item <6> begins
with a `0`. -/
def GnggaFits (body : Bytes) : Prop :=
  5 ≤ body.count comma ∧
    ((∃ t, afterN comma 5 body = some (ascii '0' :: t)) ∨ 8 ≤ body.count comma)

/-- A packet is long enough for the test, and if it passes it, its body fits. -/
def Fits (s : Bytes) : Prop :=
  3 ≤ s.length ∧ (4 ≤ s.length → ChecksumOk s →
    let data := (s.take (s.length - 3)).drop 1
    (data.take 5 = text "GNRMC" → GnrmcFits (data.drop 6)) ∧
      (data.take 5 = text "GNGGA" → GnggaFits (data.drop 6)))

/-! ### Columns -/

theorem isSome_bind_column {α β : Type} {f : Bytes → Option α} {next : Option α → Option β}
    {P : Prop} (hf : (column t f).isSome) (hnext : ∀ v, (next v).isSome ↔ P) :
    ((column t f).bind next).isSome ↔ P := by
  obtain ⟨v, hv⟩ := Option.isSome_iff_exists.1 hf
  rw [hv, Option.bind_some]
  exact hnext v

theorem comma_notMem_nul (hrest : comma ∉ rest) : comma ∉ 0 :: rest :=
  List.not_mem_cons_of_ne_of_not_mem (by decide) hrest

theorem isSome_bind_after {β : Type} {next : Bytes → Option β} {k : Nat} (hrest : comma ∉ rest)
    (hnext : ∀ b, (next (b ++ 0 :: rest)).isSome ↔ k ≤ b.count comma) :
    ((after comma (b ++ 0 :: rest)).bind next).isSome ↔ k + 1 ≤ b.count comma := by
  rw [after_append_of_notMem b (comma_notMem_nul hrest)]
  cases h : after comma b with
  | none => simp [count_of_after_eq_none h]
  | some t => rw [count_after h, Nat.add_le_add_iff_right, ← hnext t]; rfl

theorem column_isSome {α : Type} {f : Bytes → Option α} (hf : (f (b ++ 0 :: rest)).isSome) :
    (column (b ++ 0 :: rest) f).isSome := by
  cases hb : b ++ 0 :: rest with
  | nil => exact absurd hb (by simp)
  | cons c t =>
    rw [hb] at hf
    rw [column]
    split
    · rfl
    · rwa [Option.isSome_map]

theorem stringOf_isSome : stringOf (b ++ 0 :: rest) = some (cstr (b ++ 0 :: rest)) := by
  rw [stringOf, if_pos (by simp)]

theorem gnrmcColumns_isSome (hrest : comma ∉ rest) (dateDay : Option (CharArray 16)) :
    (gnrmcColumns fl dateDay (b ++ 0 :: rest)).isSome ↔ 6 ≤ b.count comma := by
  rw [gnrmcColumns]
  refine isSome_bind_column (column_isSome ?_) fun _ => isSome_bind_after hrest fun b => ?_
  · rw [stringOf_isSome]; rfl
  refine isSome_bind_column (column_isSome ?_) fun _ => isSome_bind_after hrest fun b => ?_
  · simp
  refine isSome_bind_column (column_isSome ?_) fun _ => isSome_bind_after hrest fun b => ?_
  · rw [stringOf_isSome]; rfl
  refine isSome_bind_column (column_isSome ?_) fun _ => isSome_bind_after hrest fun b => ?_
  · simp
  refine isSome_bind_column (column_isSome ?_) fun _ => isSome_bind_after hrest fun b => ?_
  · rw [stringOf_isSome]; rfl
  refine isSome_bind_column (column_isSome ?_) fun _ => isSome_bind_after hrest fun b => ?_
  · rw [stringOf_isSome]; rfl
  refine isSome_bind_column (column_isSome ?_) fun _ => ?_
  · rw [stringOf_isSome]; rfl
  simp

/-- The copy of the bytes in front of the `A,`. -/
theorem column_copy_isSome {s : Bytes} {n : Nat} {c : UInt8} :
    (column (c :: t) fun _ => (CharArray.zero 16).copy s n).isSome ↔ c = comma ∨ n ≤ 16 := by
  rw [column]
  split
  · simp [*]
  · rw [CharArray.copy]
    split <;> simp [*]

theorem gnrmcUpdate_isSome (hb : 0 ∉ b) (hrest : comma ∉ rest) :
    (gnrmcUpdate fl (b ++ 0 :: rest)).isSome ↔ GnrmcFits b := by
  rw [gnrmcUpdate, stringOf_isSome, cstr_append_nul rest hb, Option.bind_eq_bind, Option.bind_some]
  cases hx : strstr [ascii 'A', comma] b with
  | none =>
    refine iff_of_true rfl ?_
    intro strx hstrx
    rw [hx] at hstrx
    exact absurd hstrx (by simp)
  | some strx =>
    have hroom := strstr_room (List.cons_ne_nil _ _) hx
    have hdrop : (b ++ 0 :: rest).drop (strx + 2) = b.drop (strx + 2) ++ 0 :: rest :=
      List.drop_append_of_le_length hroom
    cases b with
    | nil => exact absurd hroom (by simp)
    | cons c b =>
      have hfits : GnrmcFits (c :: b) ↔ (c = comma ∨ toSize ((strx : Int) - 1) ≤ 16) ∧
          6 ≤ ((c :: b).drop (strx + 2)).count comma := by
        constructor
        · intro h
          simpa using h strx hx
        · intro h strx' hx'
          obtain rfl : strx = strx' := Option.some.inj (hx.symm.trans hx')
          simpa using h
      rw [hfits, ← @column_copy_isSome (b ++ 0 :: rest) (c :: b)]
      dsimp only
      rw [hdrop, List.cons_append]
      cases column (c :: (b ++ 0 :: rest)) fun _ =>
          (CharArray.zero 16).copy (c :: b) (toSize ((strx : Int) - 1)) with
      | none => simp
      | some dateDay =>
        rw [Option.bind_eq_bind, Option.bind_some, gnrmcColumns_isSome hrest]
        simp

theorem gnggaColumns_isSome (hrest : comma ∉ rest) :
    (gnggaColumns fl (b ++ 0 :: rest)).isSome ↔ 3 ≤ b.count comma := by
  refine isSome_bind_after hrest fun b => ?_
  refine isSome_bind_column (column_isSome ?_) fun _ => ?_
  · rw [stringOf_isSome]; rfl
  refine isSome_bind_after hrest fun b => isSome_bind_after hrest fun b => ?_
  refine isSome_bind_column (column_isSome ?_) fun _ => ?_
  · rw [stringOf_isSome]; rfl
  simp

theorem gnggaUpdate_isSome (hrest : comma ∉ rest) :
    (gnggaUpdate fl (b ++ 0 :: rest)).isSome ↔ GnggaFits b := by
  rw [gnggaUpdate, afterN_append 5 b (comma_notMem_nul hrest), GnggaFits, ← afterN_isSome]
  cases h5 : afterN comma 5 b with
  | none => simp
  | some u =>
    rw [count_afterN h5, Option.map_some, Option.bind_eq_bind, Option.bind_some, Option.isSome_some]
    have hscan : (gnggaColumns fl (u ++ 0 :: rest)).isSome ↔ 3 ≤ u.count comma :=
      gnggaColumns_isSome hrest
    obtain ⟨c, v, hv, hzero⟩ : ∃ c v, u ++ 0 :: rest = c :: v ∧
        ((∃ t, some u = some (ascii '0' :: t)) ↔ c = ascii '0') := by
      cases u with
      | nil => exact ⟨0, rest, rfl, iff_of_false (by simp) (by decide)⟩
      | cons c u => exact ⟨c, u ++ 0 :: rest, rfl, by simp⟩
    rw [hv] at hscan ⊢
    rw [hzero, List.head?_cons, Option.bind_eq_bind, Option.bind_some]
    by_cases hc : c = ascii '0'
    · simp [hc]
    · rw [if_neg hc, hscan]
      simp [hc]

/-! ### Packets -/

theorem strncmpEq_iff {tag data : Bytes} (htag : tag.length = 5) :
    strncmpEq tag data 5 = true ↔ data.take 5 = tag := by
  rw [strncmpEq, decide_eq_true_iff, List.take_of_length_le (Nat.le_of_eq htag), eq_comm]

theorem sentenceOf_eq_gnrmc_iff {data : Bytes} :
    sentenceOf data = some .gnrmc ↔ data.take 5 = text "GNRMC" := by
  rw [sentenceOf, ← strncmpEq_iff (by decide)]
  split
  · simp [*]
  · split <;> simp [*]

theorem sentenceOf_eq_gngga_iff {data : Bytes} :
    sentenceOf data = some .gngga ↔ data.take 5 = text "GNGGA" := by
  have hother : text "GNRMC" ≠ text "GNGGA" := by decide
  rw [sentenceOf]
  split
  · rename_i h
    rw [strncmpEq_iff (by decide)] at h
    rw [h]
    simp [hother]
  · rw [← strncmpEq_iff (by decide)]
    split <;> simp [*]

/-- Without a comma there is no `A,` and no item <6>. -/
theorem gnrmcFits_of_notMem (h : comma ∉ b) : GnrmcFits b := by
  intro strx hx
  have hat := (strstr_eq_some_iff.1 hx).1
  exact absurd (List.mem_of_mem_drop (hat.subset (by simp))) h

theorem not_gnggaFits_of_notMem (h : comma ∉ b) : ¬ GnggaFits b := by
  rintro ⟨hcount, -⟩
  rw [List.count_eq_zero.2 h] at hcount
  exact absurd hcount (by simp)

/-- What a sentence parser gets: the body of the packet, a NUL, bytes without a comma, and what
stands behind the packet. A packet that ends at the tag has no body, and the parser gets its digits
instead. -/
theorem exists_body {data : Bytes} {c₀ d₁ d₂ m : UInt8} (hne : 0 ∉ c₀ :: (data ++ [m, d₁, d₂]))
    (hd : [d₁, d₂].map tolower = hex (xorOf data)) (hlen : 5 ≤ data.length) :
    ∃ b rest, (∀ more, (c₀ :: (data ++ 0 :: d₁ :: d₂ :: 0 :: more)).drop 7 =
        b ++ 0 :: (rest ++ more)) ∧ 0 ∉ b ∧ comma ∉ rest ∧
      (GnrmcFits b ↔ GnrmcFits (data.drop 6)) ∧ (GnggaFits b ↔ GnggaFits (data.drop 6)) := by
  have hdata : 0 ∉ data := fun h => hne (by simp [h])
  have hdigits : comma ∉ [d₁, d₂] := by
    intro h
    have hmem : tolower comma ∈ [d₁, d₂].map tolower := List.mem_map_of_mem h
    rw [hd] at hmem
    exact (crcStr_spec _).2.2 hmem
  by_cases h6 : 6 ≤ data.length
  · refine ⟨data.drop 6, d₁ :: d₂ :: [0], ?_, fun h => hdata (List.mem_of_mem_drop h), ?_,
      Iff.rfl, Iff.rfl⟩
    · intro more
      rw [List.drop_succ_cons, List.drop_append_of_le_length h6]
      rfl
    · have hrest : comma ∉ [d₁, d₂] ++ [0] := fun h =>
        (List.mem_append.1 h).elim hdigits (by decide)
      exact hrest
  · have h5 : data.length = 5 := by omega
    have hbody : data.drop 6 = [] := List.drop_of_length_le (by omega)
    refine ⟨[d₁, d₂], [], ?_, fun h => hne (by simp at h ⊢; tauto), by simp, ?_, ?_⟩
    · intro more
      have h := drop_star c₀ 0 data (d₁ :: d₂ :: 0 :: more)
      rw [h5] at h
      exact h
    · rw [hbody]
      exact iff_of_true (gnrmcFits_of_notMem hdigits) (gnrmcFits_of_notMem List.not_mem_nil)
    · rw [hbody]
      exact iff_of_false (not_gnggaFits_of_notMem hdigits)
        (not_gnggaFits_of_notMem List.not_mem_nil)

theorem five_le_length {tag data : Bytes} (htag : tag.length = 5) (h : data.take 5 = tag) :
    5 ≤ data.length := by
  rw [← h, List.length_take] at htag
  omega

theorem five_le_of_sentenceOf {data : Bytes} (h : sentenceOf data ≠ none) : 5 ≤ data.length := by
  cases hs : sentenceOf data with
  | none => exact absurd hs h
  | some sentence =>
    cases sentence with
    | gnrmc => exact five_le_length (by decide) (sentenceOf_eq_gnrmc_iff.1 hs)
    | gngga => exact five_le_length (by decide) (sentenceOf_eq_gngga_iff.1 hs)

theorem staysInside_parts {data : Bytes} {c₀ m d₁ d₂ : UInt8}
    (hne : 0 ∉ c₀ :: (data ++ [m, d₁, d₂])) :
    StaysInside (c₀ :: (data ++ [m, d₁, d₂])) ↔
      (m = ascii '*' ∧ [d₁, d₂].map tolower = hex (xorOf data) →
        (data.take 5 = text "GNRMC" → GnrmcFits (data.drop 6)) ∧
          (data.take 5 = text "GNGGA" → GnggaFits (data.drop 6))) := by
  rw [StaysInside, parts_append, packetTest_parts hne]
  by_cases hok : m = ascii '*' ∧ [d₁, d₂].map tolower = hex (xorOf data)
  · rw [if_pos hok]
    have hgnrmc : ∀ fl gps, data.take 5 = text "GNRMC" →
        ((parseGnrmc fl gps ((c₀ :: (data ++ 0 :: d₁ :: d₂ :: [0])).drop 7)).isSome ↔
          GnrmcFits (data.drop 6)) := by
      intro fl gps htag
      rcases exists_body hne hok.2 (five_le_length (by decide) htag) with
        ⟨b, rest, hdrop, hb, hrest, hfits, -⟩
      rw [hdrop, List.append_nil, parseGnrmc_eq, Option.isSome_map, gnrmcUpdate_isSome hb hrest,
        hfits]
    have hgngga : ∀ fl gps, data.take 5 = text "GNGGA" →
        ((parseGngga fl gps ((c₀ :: (data ++ 0 :: d₁ :: d₂ :: [0])).drop 7)).isSome ↔
          GnggaFits (data.drop 6)) := by
      intro fl gps htag
      rcases exists_body hne hok.2 (five_le_length (by decide) htag) with
        ⟨b, rest, hdrop, -, hrest, -, hfits⟩
      rw [hdrop, List.append_nil, parseGngga_eq, Option.isSome_map, gnggaUpdate_isSome hrest, hfits]
    constructor
    · intro h _
      rcases h default GpsInfo.zero with ⟨buf, sentence, htest, hr, hg⟩
      obtain ⟨rfl, rfl⟩ := Prod.mk.inj (Option.some.inj htest)
      exact ⟨fun htag => (hgnrmc _ _ htag).1 (hr (sentenceOf_eq_gnrmc_iff.2 htag)),
        fun htag => (hgngga _ _ htag).1 (hg (sentenceOf_eq_gngga_iff.2 htag))⟩
    · intro h fl gps
      rcases h hok with ⟨hr, hg⟩
      refine ⟨_, _, rfl, fun hs => ?_, fun hs => ?_⟩
      · have htag := sentenceOf_eq_gnrmc_iff.1 hs
        exact (hgnrmc fl gps htag).2 (hr htag)
      · have htag := sentenceOf_eq_gngga_iff.1 hs
        exact (hgngga fl gps htag).2 (hg htag)
  · rw [if_neg hok]
    refine iff_of_true (fun fl gps => ⟨_, none, rfl, ?_, ?_⟩) (fun h => absurd h hok)
    · exact fun h => absurd h (by simp)
    · exact fun h => absurd h (by simp)

/-- A packet `*00` passes the test, but it has no tag. -/
theorem packetTest_three {m d₁ d₂ : UInt8} (hne : 0 ∉ [m, d₁, d₂]) :
    ∃ buf, packetTest [m, d₁, d₂, 0] = some (buf, none) := by
  have hstrlen : strlen [m, d₁, d₂, 0] = some 3 := strlen_append_nul [] hne
  have hload : load [m, d₁, d₂, 0] ((3 : Nat) - 3) = some m := rfl
  have hbcc : bccAt [m, d₁, d₂, 0] 1 ((3 : Nat) - 4) = some 0 := rfl
  rw [packetTest, hstrlen, Option.bind_eq_bind, Option.bind_some, hload, Option.bind_eq_bind,
    Option.bind_some]
  split
  · exact ⟨_, rfl⟩
  · rw [hbcc, Option.bind_eq_bind, Option.bind_some]
    dsimp only
    split
    · exact ⟨_, rfl⟩
    · have hstore : store [m, d₁, d₂, 0] ((3 : Nat) - 3) 0 = some [0, d₁, d₂, 0] := rfl
      have hdigits : 0 ∉ [d₁, d₂] := fun h => hne (List.mem_cons_of_mem m h)
      have hstring : cstrAt [0, d₁, d₂, 0] 1 = some [d₁, d₂] := cstrAt_data 0 [] hdigits
      have hshort : ∀ tag : Bytes, tag.length = 5 → ¬ strncmpEq tag [d₁, d₂] 5 = true :=
        fun tag htag h => absurd (five_le_length htag ((strncmpEq_iff htag).1 h)) (by simp)
      rw [hstore, Option.bind_some, hstring, Option.bind_some, if_neg (hshort _ (by decide)),
        if_neg (hshort _ (by decide))]
      exact ⟨_, rfl⟩

theorem packetTest_short {s : Bytes} (hne : 0 ∉ s) (hs : s.length < 3) :
    packetTest (s ++ [0]) = none := by
  rw [packetTest, strlen_append_nul [] hne, Option.bind_eq_bind, Option.bind_some, load,
    if_neg (by omega)]
  rfl

/-! ### The packets that the parsers do not leave -/

/-- The parsers stay inside a packet exactly when it is long enough for the test and, if it
passes it, its body has the commas they look for. -/
theorem staysInside_iff {s : Bytes} (hne : 0 ∉ s) : StaysInside s ↔ Fits s := by
  by_cases hlen : 4 ≤ s.length
  · have hthree : 3 ≤ s.length := Nat.le_of_succ_le hlen
    obtain ⟨c₀, data, m, d₁, d₂, rfl⟩ := exists_parts hlen
    rw [staysInside_parts hne, Fits, data_parts, checksumOk_parts]
    exact ⟨fun h => ⟨hthree, fun _ => h⟩, fun h => h.2 hlen⟩
  · by_cases hthree : s.length = 3
    · obtain ⟨m, d₁, d₂, rfl⟩ := List.length_eq_three.1 hthree
      obtain ⟨buf, htest⟩ := packetTest_three hne
      refine iff_of_true (fun fl gps => ⟨buf, none, htest, ?_, ?_⟩) ⟨Nat.le_refl 3, ?_⟩
      · exact fun h => absurd h (by simp)
      · exact fun h => absurd h (by simp)
      · exact fun h => absurd h hlen
    · have hshort : s.length < 3 := by omega
      refine iff_of_false ?_ (fun h => absurd h.1 (Nat.not_le_of_lt hshort))
      intro h
      rcases h default GpsInfo.zero with ⟨buf, sentence, htest, -⟩
      rw [packetTest_short hne hshort] at htest
      exact absurd htest (by simp)

/-- The body of a whole GNRMC sentence: its first `A,` is the status. -/
theorem gnrmcFits_whole :
    GnrmcFits (text "083559.00,A,3130.2,N,12024.1,E,0.5,77.5,091202,,,A") := by
  intro strx hstrx
  have hfound : strstr [ascii 'A', comma]
      (text "083559.00,A,3130.2,N,12024.1,E,0.5,77.5,091202,,,A") = some 10 := by decide
  obtain rfl : strx = 10 := Option.some.inj (hstrx.symm.trans hfound)
  exact ⟨Or.inr (by decide), by decide⟩

theorem gnggaFits_whole : GnggaFits (text "083559.00,3130.2,N,12024.1,E,1,08,0.9,21.4,M") :=
  ⟨by decide, Or.inr (by decide)⟩

theorem staysInside_iff_sentences :
    StaysInside (text "$GNRMC,083559.00,A,3130.2,N,12024.1,E,0.5,77.5,091202,,,A*7D") ∧
      StaysInside (text "$GNGGA,083559.00,3130.2,N,12024.1,E,1,08,0.9,21.4,M*12") := by
  refine ⟨(staysInside_iff (by decide)).2 ⟨by decide, fun _ _ => ⟨fun _ => ?_, fun h => ?_⟩⟩,
    (staysInside_iff (by decide)).2 ⟨by decide, fun _ _ => ⟨fun h => ?_, fun _ => ?_⟩⟩⟩
  · exact gnrmcFits_whole
  · exact absurd h (by decide)
  · exact absurd h (by decide)
  · exact gnggaFits_whole

/-- A sentence with a correct check sum whose columns end behind the status: the scan for the
next comma runs over the NUL. -/
theorem not_staysInside :
    0 ∉ text "$GNRMC,1,A,*09" ∧ ChecksumOk (text "$GNRMC,1,A,*09") ∧
      ¬ StaysInside (text "$GNRMC,1,A,*09") := by
  have hne : 0 ∉ text "$GNRMC,1,A,*09" := by decide
  have hok : ChecksumOk (text "$GNRMC,1,A,*09") := by decide
  refine ⟨hne, hok, fun h => ?_⟩
  have h' : StaysInside
      (ascii '$' :: (text "GNRMC,1,A," ++ [ascii '*', ascii '0', ascii '9'])) := h
  have hfits := ((staysInside_parts (by decide)).1 h' (by decide)).1 (by decide) 2 (by decide)
  exact absurd hfits.2 (by decide)

end Gps
end CFunction
