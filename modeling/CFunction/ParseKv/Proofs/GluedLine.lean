import CFunction.ParseKv.Proofs.FileLines

/-!
# A pair behind an unterminated line

A line that is written behind a last line without a newline becomes one with it. The key is found
in that line, with its value, only if the last line is blank, or begins with the key itself as a
word, and `fgets` reads both at once.
-/

namespace CFunction
namespace ParseKv

open CString Trim BoundedLines

/-- The lines of the file and of the new pair, in one. -/
def glued (last key value : Bytes) : Bytes := last ++ kvLine key value

/-- The last line is empty, or the new pair can be put behind it: it has no `=`, it is blank or
its first word is the key, and both fit into what one `fgets` reads. -/
def Appendable (last key value : Bytes) : Prop :=
  last = [] ∨
    (equals ∉ last ∧ (kvGetKey last = [] ∨ ∃ c t, kvGetKey last = key ++ c :: t ∧ isspace c) ∧
      last.length + key.length + value.length + 1 ≤ LINE_MAX)

/-! ### A lookup in the glued line -/

/-- The new pair behind a blank line, or behind one that begins with the key. -/
theorem kvGetKey_glued {last key e : Bytes} (hkey : ValidKey key)
    (hword : kvGetKey last = [] ∨ ∃ c t, kvGetKey last = key ++ c :: t ∧ isspace c)
    (value : Bytes) :
    ∃ c t, kvGetKey (last ++ (key ++ equals :: value ++ e)) = key ++ c :: t ∧ isSeparator c := by
  rcases hword with hblank | ⟨c, t, hstart, hc⟩
  · have hall : ∀ c ∈ last, isspace c := List.dropWhile_eq_nil_iff.1 hblank
    refine ⟨equals, value ++ e, ?_, by decide⟩
    rw [kvGetKey, List.dropWhile_append_of_pos hall, dropWhile_of_first]
    · simp
    · intro c hc
      obtain ⟨d, k, rfl⟩ := List.exists_cons_of_ne_nil hkey.ne_nil
      obtain rfl : d = c := Option.some.inj hc
      exact hkey.no_space d List.mem_cons_self
  · refine ⟨c, t ++ (key ++ equals :: value ++ e), ?_, by rw [isSeparator, hc, Bool.or_true]⟩
    have hne : kvGetKey last ≠ [] := by
      rw [hstart]
      exact List.append_ne_nil_of_right_ne_nil key (List.cons_ne_nil c t)
    rw [kvGetKey] at hstart hne ⊢
    rw [List.dropWhile_append, if_neg (by simpa using hne), hstart]
    simp

theorem equals_mem_kvGetKey {line : Bytes} (h : equals ∈ line) : equals ∈ kvGetKey line := by
  rw [← List.takeWhile_append_dropWhile (p := isspace) (l := line), List.mem_append] at h
  refine h.resolve_left fun hblank => ?_
  exact absurd (List.mem_takeWhile_imp hblank) (by decide)

/-- The lines of a last line without a newline. -/
theorem lineStrings_last {last : Bytes} (hnl : nl ∉ last) (hnul : 0 ∉ last)
    (hlen : last.length ≤ 254) : lineStrings last = if last = [] then [] else [last] := by
  rw [lineStrings]
  by_cases hne : last = []
  · rw [if_pos hne, hne]
    rfl
  · have hfits : ([] : Bytes).length + last.length < LINE_MAX := by
      rw [List.length_nil, Nat.zero_add]
      exact Nat.lt_succ_of_le hlen
    have hsome : [] ++ last ≠ [] := hne
    rw [if_neg hne, readLines, cut_last hnl hfits hsome]
    exact congrArg (fun l => [l]) (lineString_of_notMem hnul)

section Glued

variable {last key value : Bytes}

theorem glued_eq (last key value : Bytes) :
    glued last key value = last ++ (key ++ equals :: value) ++ [nl] := by
  rw [glued, kvLine_eq, ← List.append_assoc]

theorem pair_length (last key value : Bytes) : (last ++ (key ++ equals :: value)).length =
    last.length + key.length + value.length + 1 := by
  simp only [List.length_append, List.length_cons]
  omega

theorem lineStrings_short (hvalid : Valid key value) (hnl : nl ∉ last) (hnul : 0 ∉ last)
    (hlen : last.length + key.length + value.length + 1 < LINE_MAX) :
    lineStrings (glued last key value) = [last ++ (key ++ equals :: value) ++ [nl]] := by
  have hline : nl ∉ last ++ (key ++ equals :: value) := by
    rw [List.mem_append]
    exact not_or.2 ⟨hnl, hvalid.nl_notMem⟩
  have hzero : 0 ∉ last ++ (key ++ equals :: value) ++ [nl] := by
    rw [← glued_eq, glued, List.mem_append]
    exact not_or.2 ⟨hnul, hvalid.zero_notMem⟩
  have hfits : ([] : Bytes).length + (last ++ (key ++ equals :: value)).length < LINE_MAX := by
    rw [pair_length, List.length_nil, Nat.zero_add]
    exact hlen
  rw [lineStrings, readLines, glued_eq, cut_line hline hfits]
  exact congrArg (fun l => [l]) (lineString_of_notMem hzero)

/-- A glued line that is too long is read in two pieces. -/
theorem lineStrings_long (hvalid : Valid key value) (hnl : nl ∉ last) (hnul : 0 ∉ last)
    (hlast : last.length ≤ 254)
    (hlen : LINE_MAX ≤ last.length + key.length + value.length + 1) :
    lineStrings (glued last key value) =
      [(last ++ (key ++ equals :: value)).take LINE_MAX,
        (last ++ (key ++ equals :: value)).drop LINE_MAX ++ [nl]] := by
  have hmax : LINE_MAX = 255 := rfl
  have hfits := hvalid.fits
  have hpair := pair_length last key value
  have hline : nl ∉ last ++ (key ++ equals :: value) := by
    rw [List.mem_append]
    exact not_or.2 ⟨hnl, hvalid.nl_notMem⟩
  have hzero : 0 ∉ last ++ (key ++ equals :: value) ++ [nl] := by
    rw [← glued_eq, glued, List.mem_append]
    exact not_or.2 ⟨hnul, hvalid.zero_notMem⟩
  rw [List.mem_append, not_or] at hzero
  rw [lineStrings, readLines, glued_eq]
  generalize last ++ (key ++ equals :: value) = g at hpair hline hzero ⊢
  have hsplit : g ++ [nl] = g.take LINE_MAX ++ (g.drop LINE_MAX ++ [nl]) := by
    rw [← List.append_assoc, List.take_append_drop]
  have htake : (g.take LINE_MAX).length = LINE_MAX := by
    rw [List.length_take]
    omega
  have hne : g.take LINE_MAX ≠ [] := by
    apply List.ne_nil_of_length_pos
    omega
  have hdrop : ([] : Bytes).length + (g.drop LINE_MAX).length < LINE_MAX := by
    rw [List.length_drop, List.length_nil]
    omega
  rw [hsplit, cut_full (fun h => hline (List.mem_of_mem_take h)) hne (by simpa using htake),
    cut_line (fun h => hline (List.mem_of_mem_drop h)) hdrop]
  have hfirst : 0 ∉ g.take LINE_MAX := fun h => hzero.1 (List.mem_of_mem_take h)
  have hsecond : 0 ∉ g.drop LINE_MAX ++ [nl] := by
    rw [List.mem_append]
    exact not_or.2 ⟨fun h => hzero.1 (List.mem_of_mem_drop h), hzero.2⟩
  rw [List.map_cons, List.map_singleton, List.nil_append, List.nil_append,
    lineString_of_notMem hfirst, lineString_of_notMem hsecond]

/-! ### A pair that can be put there -/

theorem Appendable.word (h : Appendable last key value) (hvalid : Valid key value) :
    equals ∉ last ∧ (kvGetKey last = [] ∨ ∃ c t, kvGetKey last = key ++ c :: t ∧ isspace c) ∧
      last.length + key.length + value.length + 1 ≤ LINE_MAX := by
  have hfits := hvalid.fits
  have hmax : LINE_MAX = 255 := rfl
  rcases h with rfl | h
  · refine ⟨List.not_mem_nil, .inl rfl, ?_⟩
    rw [List.length_nil]
    omega
  · exact h

/-- Its line is read whole, but perhaps without the newline. -/
theorem Appendable.lines (h : Appendable last key value) (hvalid : Valid key value)
    (hnl : nl ∉ last) (hnul : 0 ∉ last) (hlast : last.length ≤ 254) :
    ∃ e rest, lineStrings (glued last key value) = (last ++ (key ++ equals :: value) ++ e) :: rest ∧
      (∀ c ∈ e, isspace c) ∧ ∀ line ∈ rest, line = [nl] := by
  obtain ⟨-, -, hlen⟩ := h.word hvalid
  rcases Nat.lt_or_eq_of_le hlen with hshort | hfull
  · refine ⟨[nl], [], lineStrings_short hvalid hnl hnul hshort, ?_, ?_⟩
    · exact fun c hc => List.mem_singleton.1 hc ▸ (by decide)
    · exact fun line hline => absurd hline List.not_mem_nil
  · have hall : (last ++ (key ++ equals :: value)).length = LINE_MAX := by
      rw [pair_length, hfull]
    refine ⟨[], [[nl]], ?_, fun c hc => absurd hc List.not_mem_nil,
      fun line hline => List.mem_singleton.1 hline⟩
    rw [lineStrings_long hvalid hnl hnul hlast (Nat.le_of_eq hfull.symm), ← hall, List.take_length,
      List.drop_length, List.append_nil, List.nil_append]

theorem Appendable.lookup_key (h : Appendable last key value) (hvalid : Valid key value)
    (hnl : nl ∉ last) (hnul : 0 ∉ last) (hlast : last.length ≤ 254) :
    ∃ res, lookup (glued last key value) key = some res ∧ delBlank res = value := by
  obtain ⟨hequals, hword, -⟩ := h.word hvalid
  obtain ⟨e, rest, hlines, he, -⟩ := h.lines hvalid hnl hnul hlast
  refine ⟨value ++ e, ?_, hvalid.validValue.delBlank he⟩
  have hline : last ++ (key ++ equals :: value) ++ e = (last ++ key) ++ equals :: (value ++ e) := by
    simp
  obtain ⟨c, t, hstart, hc⟩ := kvGetKey_glued (e := e) hvalid.validKey hword value
  rw [← List.append_assoc] at hstart
  have hmatch : kvIsKeyEqual (last ++ (key ++ equals :: value) ++ e) key = true :=
    kvIsKeyEqual_of_separator hvalid.validKey.length_int hc hstart (equals_mem_kvGetKey (by simp))
  have hfree : equals ∉ last ++ key := by
    rw [List.mem_append]
    exact not_or.2 ⟨hequals, hvalid.validKey.no_equals⟩
  rw [lookup, hlines, List.find?_cons, hmatch]
  simp only [Option.map_some, hline, valueText_append hfree]

theorem Appendable.lookup_other (h : Appendable last key value) (hvalid : Valid key value)
    (hnl : nl ∉ last) (hnul : 0 ∉ last) (hlast : last.length ≤ 254) {key' : Bytes}
    (hkey' : ValidKey key') (hne : key' ≠ key) :
    lookup (glued last key value) key' = none ∧ lookup last key' = none := by
  obtain ⟨hequals, hword, -⟩ := h.word hvalid
  obtain ⟨e, rest, hlines, -, hrest⟩ := h.lines hvalid hnl hnul hlast
  rw [lookup_eq_none_iff, lookup_eq_none_iff, hlines, lineStrings_last hnl hnul hlast]
  constructor
  · intro line hline
    rw [Bool.eq_false_iff]
    intro hmatch
    obtain ⟨c', t', hstart', hc'⟩ := kvIsKeyEqual_separator hkey'.length_int hmatch
    rcases List.mem_cons.1 hline with rfl | hline
    · obtain ⟨c, t, hstart, hc⟩ := kvGetKey_glued (e := e) hvalid.validKey hword value
      rw [← List.append_assoc, hstart'] at hstart
      exact hne (hkey'.unique hvalid.validKey hc' hc hstart)
    · rw [hrest line hline] at hstart'
      exact absurd hstart'.symm (by simp [kvGetKey, isspace, nl, ascii])
  · intro line hline
    rw [Bool.eq_false_iff]
    intro hmatch
    have hmem := equals_mem_of_match hmatch
    split at hline
    · exact absurd hline List.not_mem_nil
    · rw [List.mem_singleton.1 hline] at hmem
      exact hequals hmem

/-! ### A pair that cannot -/

/-- A last line that is not one of the key becomes one only if it is blank, or its first word is
the key. -/
theorem glued_word {u x : Bytes} (hkey : ValidKey key) (hfree : kvIsKeyEqual last key = false)
    (hu : u <+: key ++ equals :: x) (hmatch : kvIsKeyEqual (last ++ u) key = true) :
    equals ∉ last ∧ (kvGetKey last = [] ∨ ∃ c t, kvGetKey last = key ++ c :: t ∧ isspace c) := by
  by_cases hblank : kvGetKey last = []
  · refine ⟨fun h => ?_, .inl hblank⟩
    have hmem := equals_mem_kvGetKey h
    rw [hblank] at hmem
    exact List.not_mem_nil hmem
  · have hskip : kvGetKey (last ++ u) = kvGetKey last ++ u := by
      rw [kvGetKey] at hblank
      rw [kvGetKey, kvGetKey, List.dropWhile_append, if_neg (by simpa using hblank)]
    obtain ⟨c, t, hstr, hc⟩ := kvIsKeyEqual_separator hkey.length_int hmatch
    rw [hskip] at hstr
    -- a separator does not stand inside the new key
    have hinside : ∀ v, u = v ++ c :: t → ¬ v.length < key.length := by
      rintro v rfl hlen
      have hpre : v ++ [c] <+: key ++ equals :: x :=
        List.IsPrefix.trans ⟨t, by simp⟩ hu
      have hin : v ++ [c] <+: key := by
        refine List.prefix_of_prefix_length_le hpre (List.prefix_append key _) ?_
        rw [List.length_append, List.length_singleton]
        exact hlen
      have hmem : c ∈ key := hin.subset (List.mem_append_right v (List.mem_singleton_self c))
      exact absurd hc (by rw [hkey.not_separator hmem]; exact Bool.false_ne_true)
    rcases List.append_eq_append_iff.1 hstr with ⟨v, hv, hrest⟩ | ⟨v, hv, hrest⟩
    · refine absurd ?_ (hinside v hrest)
      have hpos := List.length_pos_iff.2 hblank
      rw [hv, List.length_append]
      omega
    · cases v with
      | nil => exact absurd (List.length_pos_iff.2 hkey.ne_nil) (hinside [] hrest.symm)
      | cons d v =>
        injection hrest with hd
        subst hd
        have hno : equals ∉ last := by
          intro h
          rw [kvIsKeyEqual_of_separator hkey.length_int hc hv (equals_mem_kvGetKey h)] at hfree
          cases hfree
        refine ⟨hno, .inr ⟨c, v, hv, ?_⟩⟩
        have hother : c ≠ equals := by
          rintro rfl
          refine hno ((List.dropWhile_suffix isspace).subset ?_)
          rw [kvGetKey] at hv
          rw [hv]
          exact List.mem_append_right key List.mem_cons_self
        rw [isSeparator, Bool.or_eq_true, decide_eq_true_eq] at hc
        exact hc.resolve_left hother

/-- The key of a line that matches stands in front of the first `=`. -/
theorem length_le_keyText {line : Bytes} (hkey : ValidKey key)
    (hmatch : kvIsKeyEqual line key = true) : key.length ≤ (keyText line).length := by
  obtain ⟨c, t, hstr, -⟩ := kvIsKeyEqual_separator hkey.length_int hmatch
  have hline := List.takeWhile_append_dropWhile (p := isspace) (l := line)
  rw [kvGetKey] at hstr
  rw [hstr, ← List.append_assoc] at hline
  have hfree : ∀ d ∈ line.takeWhile isspace ++ key, decide (d ≠ equals) = true := by
    intro d hd
    refine decide_eq_true ?_
    rintro rfl
    rcases List.mem_append.1 hd with hd | hd
    · exact absurd (List.mem_takeWhile_imp hd) (by decide)
    · exact hkey.no_equals hd
  rw [keyText, ← hline, List.takeWhile_append_of_pos hfree, List.length_append, List.length_append]
  omega

/-- The first piece of a long line, when it matches, holds a part of the value only. -/
theorem first_piece_short (hvalid : Valid key value) (hequals : equals ∉ last)
    (hlen : LINE_MAX < last.length + key.length + value.length + 1)
    (hmem : equals ∈ (last ++ (key ++ equals :: value)).take LINE_MAX) :
    (valueText ((last ++ (key ++ equals :: value)).take LINE_MAX)).length < value.length := by
  have hpair := pair_length last key value
  have hfree : equals ∉ last ++ key := by
    rw [List.mem_append]
    exact not_or.2 ⟨hequals, hvalid.validKey.no_equals⟩
  have hvalue : valueText (last ++ (key ++ equals :: value)) = value := by
    rw [← List.append_assoc]
    exact valueText_append hfree value
  generalize last ++ (key ++ equals :: value) = g at hpair hvalue hmem ⊢
  obtain ⟨hno, hsplit⟩ := exists_keyText hmem
  have hall : valueText g = valueText (g.take LINE_MAX) ++ g.drop LINE_MAX := by
    conv_lhs => rw [← List.take_append_drop LINE_MAX g, hsplit, List.append_assoc,
      List.cons_append]
    exact valueText_append hno _
  rw [← hvalue, hall, List.length_append, List.length_drop, hpair]
  omega

/-- And so does the second. -/
theorem second_piece_short (hvalid : Valid key value) (hlast : last.length ≤ 254)
    (hmatch : kvIsKeyEqual ((last ++ (key ++ equals :: value)).drop LINE_MAX ++ [nl]) key = true) :
    (valueText ((last ++ (key ++ equals :: value)).drop LINE_MAX ++ [nl])).length <
      value.length := by
  have hmax : LINE_MAX = 255 := rfl
  have hlong := length_le_keyText hvalid.validKey hmatch
  have hpos := List.length_pos_iff.2 hvalid.validKey.ne_nil
  have hmem := equals_mem_of_match hmatch
  obtain ⟨d, hd⟩ : ∃ d, LINE_MAX = last.length + d := ⟨LINE_MAX - last.length, by omega⟩
  have hpiece : (last ++ (key ++ equals :: value)).drop LINE_MAX =
      (key ++ equals :: value).drop d := by
    rw [hd, List.drop_append, List.drop_of_length_le (Nat.le_add_right _ d), List.nil_append,
      Nat.add_sub_cancel_left]
  rw [hpiece] at hlong hmem ⊢
  by_cases hkey : d ≤ key.length
  · -- it begins within the key, which has lost a character
    rw [List.drop_append_of_le_length hkey, List.append_assoc, List.cons_append,
      keyText_append (fun h => hvalid.validKey.no_equals (List.mem_of_mem_drop h)),
      List.length_drop] at hlong
    omega
  · obtain ⟨-, hsplit⟩ := exists_keyText hmem
    have hsize := congrArg List.length hsplit
    simp only [List.length_append, List.length_cons, List.length_drop, List.length_nil] at hsize
    omega

theorem length_lookup_lt (hvalid : Valid key value) (hnl : nl ∉ last) (hnul : 0 ∉ last)
    (hlast : last.length ≤ 254) (habsent : lookup last key = none)
    (happend : ¬ Appendable last key value) {res : Bytes}
    (hfound : lookup (glued last key value) key = some res) : res.length < value.length := by
  have hfree : kvIsKeyEqual last key = false := by
    refine lookup_eq_none_iff.1 habsent last ?_
    rw [lineStrings_last hnl hnul hlast, if_neg (fun h => happend (.inl h))]
    exact List.mem_singleton_self last
  rw [lookup] at hfound
  obtain ⟨line, hline, rfl⟩ := Option.map_eq_some_iff.1 hfound
  have hmatch := List.find?_some (p := (kvIsKeyEqual · key)) hline
  have hmem := List.mem_of_find?_eq_some hline
  rcases Nat.lt_or_ge (last.length + key.length + value.length + 1) LINE_MAX with hshort | hlong
  · rw [lineStrings_short hvalid hnl hnul hshort, List.mem_singleton] at hmem
    rw [hmem, List.append_assoc, List.append_assoc] at hmatch
    have hword := glued_word hvalid.validKey hfree List.prefix_rfl hmatch
    exact absurd (.inr ⟨hword.1, hword.2, Nat.le_of_lt hshort⟩) happend
  · rw [lineStrings_long hvalid hnl hnul hlast hlong] at hmem
    rcases List.mem_cons.1 hmem with rfl | hmem
    · have hpiece : (last ++ (key ++ equals :: value)).take LINE_MAX =
          last ++ (key ++ equals :: value).take (LINE_MAX - last.length) := by
        rw [List.take_append, List.take_of_length_le]
        exact Nat.le_trans hlast (by decide)
      have hword := glued_word hvalid.validKey hfree (List.take_prefix _ _) (hpiece ▸ hmatch)
      refine first_piece_short hvalid hword.1 ?_ (equals_mem_of_match hmatch)
      by_contra hfits
      exact happend (.inr ⟨hword.1, hword.2, Nat.le_of_not_lt hfits⟩)
    · rw [List.mem_singleton] at hmem
      subst hmem
      exact second_piece_short hvalid hlast hmatch

end Glued

end ParseKv
end CFunction
