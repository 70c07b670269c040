import CFunction.Misc.BoundedLines
import CFunction.ParseKv.Proofs.KeyMatch

/-!
# Any file, line by line

What the calls of `fgets` deliver of a file: its lines, those of more than 255 bytes in pieces,
and each as the string that a buffer then holds. A lookup searches these strings; the buffer that
keeps the last line at the end of the file holds a string that it has searched already.
-/

namespace CFunction
namespace ParseKv

open CString Trim BoundedLines

/-- What one `fgets` can get. -/
abbrev LINE_MAX : Nat := KV_SIZE - 1

/-- The lines of a file as `fgets` delivers them. -/
abbrev readLines (content : Bytes) : List Bytes := cut nl LINE_MAX [] content

/-- The string of a line in a buffer. -/
def lineString (line : Bytes) : Bytes := cstr (line ++ [0])

theorem lineString_of_notMem {line : Bytes} (h : 0 ∉ line) : lineString line = line :=
  cstr_append_nul [] h

theorem zero_notMem_lineString (line : Bytes) : 0 ∉ lineString line :=
  (contains_of_mem (List.mem_append_right line (List.mem_singleton_self 0))).1

/-- The strings that a lookup compares with the key. -/
def lineStrings (content : Bytes) : List Bytes := (readLines content).map lineString

/-- The text behind the first `=` of the first line that matches the key. -/
def lookup (content key : Bytes) : Option Bytes :=
  ((lineStrings content).find? (kvIsKeyEqual · key)).map valueText

theorem lookup_eq_none_iff {content key : Bytes} :
    lookup content key = none ↔ ∀ line ∈ lineStrings content, kvIsKeyEqual line key = false := by
  rw [lookup, Option.map_eq_none_iff, List.find?_eq_none]
  simp only [Bool.not_eq_true]

/-! ### `fgets` -/

theorem readLine_length_le (n : Nat) (l : Bytes) : (readLine n l).1.length ≤ n := by
  induction l generalizing n with
  | nil =>
    cases n with
    | zero => exact Nat.le_refl 0
    | succ n => exact Nat.zero_le _
  | cons b l ih =>
    cases n with
    | zero => exact Nat.le_refl 0
    | succ n =>
      rw [readLine]
      split
      · exact Nat.succ_le_succ (Nat.zero_le n)
      · exact Nat.succ_le_succ (ih n)

theorem readLine_isPrefix (n : Nat) (l : Bytes) : (readLine n l).1 <+: l := by
  induction l generalizing n with
  | nil =>
    cases n with
    | zero => exact List.prefix_rfl
    | succ n => exact List.prefix_rfl
  | cons b l ih =>
    cases n with
    | zero => exact List.nil_prefix
    | succ n =>
      rw [readLine]
      split
      · exact List.cons_prefix_cons.2 ⟨rfl, List.nil_prefix⟩
      · exact List.cons_prefix_cons.2 ⟨rfl, ih n⟩

/-- Only with its last byte the end of the file is met. -/
theorem readLine_eof {n : Nat} {l : Bytes} (h : (readLine n l).2 = true) :
    l.drop (readLine n l).1.length = [] := by
  induction l generalizing n with
  | nil => exact List.drop_nil
  | cons b l ih =>
    cases n with
    | zero => cases h
    | succ n =>
      rw [readLine] at h ⊢
      split
      · rename_i hb
        rw [if_pos hb] at h
        cases h
      · rename_i hb
        rw [if_neg hb] at h
        exact ih h

theorem readLine_ne_nil {n : Nat} (hn : 0 < n) {l : Bytes} (hl : l ≠ []) :
    (readLine n l).1 ≠ [] := by
  obtain ⟨n, rfl⟩ := Nat.exists_eq_add_one.2 hn
  obtain ⟨b, l, rfl⟩ := List.exists_cons_of_ne_nil hl
  rw [readLine]
  split
  · exact List.cons_ne_nil _ _
  · exact List.cons_ne_nil _ _

/-- The first of the lines is what `fgets` reads. -/
theorem cut_readLine {n : Nat} {cur l : Bytes} (hcur : cur.length < n) (hl : l ≠ []) :
    cut nl n cur l = (cur ++ (readLine (n - cur.length) l).1) ::
      cut nl n [] (l.drop (readLine (n - cur.length) l).1.length) := by
  induction l generalizing cur with
  | nil => exact absurd rfl hl
  | cons b l ih =>
    obtain ⟨k, hk⟩ : ∃ k, n - cur.length = k + 1 := ⟨n - cur.length - 1, by omega⟩
    rw [hk, readLine]
    by_cases hb : b = nl
    · rw [cut_here (.inl hb), if_pos hb]
      rfl
    · rw [if_neg hb]
      by_cases hfull : cur.length + 1 = n
      · obtain rfl : k = 0 := by omega
        rw [cut_here (.inr hfull)]
        rfl
      · rw [cut_on (fun h => h.elim hb hfull)]
        have hlen : (cur ++ [b]).length = cur.length + 1 := by
          rw [List.length_append, List.length_singleton]
        have hk' : n - (cur ++ [b]).length = k := by omega
        cases l with
        | nil =>
          obtain ⟨k, rfl⟩ : ∃ j, k = j + 1 := ⟨k - 1, by omega⟩
          rw [cut, if_neg (by simp)]
          rfl
        | cons c l =>
          have hnext := @ih (cur ++ [b]) (by omega) (List.cons_ne_nil c l)
          rw [hk'] at hnext
          rw [hnext, List.append_assoc]
          rfl

/-- `fgets` in front of the end of the file. -/
theorem fgets_readLine {linebuf : Bytes} {fp : Stream} (hbuf : linebuf.length = KV_SIZE)
    (hrest : fp.rest ≠ []) (heof : fp.eof = false) : ∃ line linebuf' fp',
      fgets linebuf KV_SIZE fp = some (linebuf', fp') ∧
      readLines fp.rest = line :: readLines fp'.rest ∧
      Contains linebuf' (lineString line) ∧ linebuf'.length = KV_SIZE ∧
      fp'.content = fp.content ∧ (fp'.eof = true → fp'.rest = []) := by
  have hsize : LINE_MAX = 255 := rfl
  have hkv : KV_SIZE = 256 := rfl
  have hempty : ([] : Bytes).length < LINE_MAX := Nat.zero_lt_succ 254
  have hcut := cut_readLine hempty hrest
  have hne := readLine_ne_nil (n := LINE_MAX) (by decide) hrest
  have hlen := readLine_length_le LINE_MAX fp.rest
  have hlast := @readLine_eof LINE_MAX fp.rest
  have hpre := readLine_isPrefix LINE_MAX fp.rest
  rw [List.length_nil, Nat.sub_zero, List.nil_append] at hcut
  generalize hline : (readLine LINE_MAX fp.rest).1 = line at *
  have hcopy : overwrite linebuf 0 (line ++ [0]) =
      some (line ++ [0] ++ linebuf.drop (line ++ [0]).length) := by
    rw [overwrite, List.take_zero, List.nil_append, Nat.zero_add, if_pos]
    rw [List.length_append, List.length_singleton]
    omega
  refine ⟨line, line ++ [0] ++ linebuf.drop (line ++ [0]).length,
    ⟨fp.before ++ line, fp.rest.drop line.length, (readLine LINE_MAX fp.rest).2⟩, ?_, hcut, ?_, ?_,
    ?_, hlast⟩
  · rw [fgets, hline]
    simp only [if_neg hne, hcopy, heof, Bool.false_or, Option.bind_eq_bind, Option.bind_some]
  · obtain ⟨hnul, rest, hstring⟩ :=
      contains_of_mem (List.mem_append_right line (List.mem_singleton_self 0))
    refine ⟨hnul, rest ++ linebuf.drop (line ++ [0]).length, ?_⟩
    rw [lineString, ← List.cons_append, ← List.append_assoc, ← hstring]
  · simp only [List.length_append, List.length_singleton, List.length_drop]
    omega
  · obtain ⟨v, hv⟩ := hpre
    rw [Stream.content, Stream.content, ← hv, List.drop_left, List.append_assoc]

/-! ### The loop of a lookup -/

theorem getD_mem {s : Bytes} {i : Nat} (h : s.getD i 0 ≠ 0) : s.getD i 0 ∈ s := by
  rw [List.getD_eq_getElem?_getD] at h ⊢
  cases hi : s[i]? with
  | none =>
    rw [hi] at h
    exact absurd rfl h
  | some c => exact List.mem_of_getElem? hi

/-- A line that matches has an `=`. -/
theorem equals_mem_of_match {line key : Bytes} (h : kvIsKeyEqual line key = true) :
    equals ∈ line := by
  have hsub : kvGetKey line ⊆ line := (List.dropWhile_suffix _).subset
  simp only [kvIsKeyEqual, Bool.and_eq_true, Bool.or_eq_true, decide_eq_true_eq,
    List.contains_iff_mem] at h
  rcases h.2 with ⟨-, hmem⟩ | hbehind
  · exact hsub hmem
  · refine hsub ?_
    rw [equals, hbehind]
    exact getD_mem (by rw [← hbehind]; decide)

theorem not_kvIsKeyEqual_empty (key : Bytes) : kvIsKeyEqual [] key = false :=
  Bool.eq_false_iff.2 fun h => List.not_mem_nil (equals_mem_of_match h)

theorem findLine_end (key : Bytes) (fuel : Nat) (linebuf : Bytes) {fp : Stream}
    (h : fp.eof = true) : findLine key fuel linebuf fp = some none := by
  cases fuel with
  | zero => rw [findLine, if_pos h]
  | succ fuel => rw [findLine, if_pos h]

/-- The loop searches the strings of the lines. `linebuf` holds one that it has searched, so that
meeting it again at the end of the file makes no difference. -/
theorem findLine_lines (key : Bytes) : ∀ (fuel : Nat) (linebuf : Bytes) (fp : Stream),
    fp.eof = false → linebuf.length = KV_SIZE → kvIsKeyEqual (cstr linebuf) key = false →
    (readLines fp.rest).length < fuel →
    ∃ found, findLine key fuel linebuf fp = some found ∧
      match (lineStrings fp.rest).find? (kvIsKeyEqual · key) with
      | none => found = none
      | some line => ∃ buf, found = some buf ∧ Contains buf line := by
  intro fuel
  induction fuel with
  | zero => exact fun _ _ _ _ _ h => absurd h (Nat.not_lt_zero _)
  | succ fuel ih =>
    intro linebuf fp heof hbuf hlast hfuel
    rw [findLine, heof]
    by_cases hrest : fp.rest = []
    · rw [fgets_end hrest]
      simp only [Option.bind_eq_bind, Option.bind_some, hlast, hrest, if_neg Bool.false_ne_true]
      exact ⟨none, findLine_end key fuel linebuf rfl, rfl⟩
    · obtain ⟨line, linebuf', fp', hfgets, hlines, hline, hbuf', -, hend⟩ :=
        fgets_readLine hbuf hrest heof
      rw [hfgets, lineStrings, hlines, List.map_cons, List.find?_cons]
      simp only [Option.bind_eq_bind, Option.bind_some, hline.cstr_eq, if_neg Bool.false_ne_true]
      cases hmatch : kvIsKeyEqual (lineString line) key with
      | true => exact ⟨some linebuf', rfl, linebuf', rfl, hline⟩
      | false =>
        simp only [if_neg Bool.false_ne_true]
        cases heof' : fp'.eof with
        | true =>
          rw [findLine_end key fuel linebuf' heof', hend heof']
          exact ⟨none, rfl, rfl⟩
        | false =>
          refine ih linebuf' fp' heof' hbuf' (hline.cstr_eq.symm ▸ hmatch) ?_
          rw [hlines, List.length_cons] at hfuel
          exact Nat.lt_of_succ_lt_succ hfuel

/-! ### A lookup -/

/-- What is copied for a text and trimmed, over a buffer. -/
def copyTrimmed (res value : Bytes) : Option (Int × Bytes) := do
  let value ← strncpy value res res.length
  let value ← kvDelBlank value
  some (0, value)

/-- A lookup copies the text behind the first `=` of the first line that matches. -/
theorem fileGetValue_lookup (content key value : Bytes) :
    fileGetValue (some content) key value =
      match lookup content key with
      | none => some (-3, value)
      | some res => copyTrimmed res value := by
  have hzeros : Contains (List.replicate KV_SIZE 0) [] := contains_zeros (by decide)
  obtain ⟨found, hloop, hfound⟩ := findLine_lines key (content.length + 1)
    (List.replicate KV_SIZE 0) (.start content) rfl List.length_replicate
    (hzeros.cstr_eq.symm ▸ not_kvIsKeyEqual_empty key)
    (Nat.lt_succ_of_le (length_cut_le [] content))
  have hlines : lineStrings (Stream.start content).rest = lineStrings content := rfl
  rw [hlines] at hfound
  rw [fileGetValue, lookup, hloop]
  cases hfind : (lineStrings content).find? (kvIsKeyEqual · key) with
  | none =>
    rw [hfind] at hfound
    rw [hfound]
    rfl
  | some line =>
    rw [hfind] at hfound
    obtain ⟨linebuf, rfl, hline⟩ := hfound
    have hmatch := List.find?_some (p := (kvIsKeyEqual · key)) hfind
    obtain ⟨hkey, hsplit⟩ := exists_keyText (equals_mem_of_match hmatch)
    have hindex : kvGetValue (cstr linebuf) = some ((keyText line).length + 1) := by
      rw [hline.cstr_eq]
      conv_lhs => rw [hsplit]
      exact kvGetValue_eq hkey _
    have hres : cstr (linebuf.drop ((keyText line).length + 1)) = valueText line := by
      obtain ⟨hnul, rest, rfl⟩ := hline
      have hbuf : line ++ 0 :: rest =
          (keyText line ++ [equals]) ++ (valueText line ++ 0 :: rest) := by
        conv_lhs => rw [hsplit]
        simp
      have hvalue : 0 ∉ valueText line := by
        intro h
        rw [hsplit] at hnul
        exact hnul (List.mem_append_right _ (List.mem_cons_of_mem _ h))
      rw [hbuf, List.drop_left' (by simp), cstr_append_nul rest hvalue]
    simp only [Option.bind_eq_bind, Option.bind_some, hindex, hres, Option.map_some]
    rfl

theorem fileGetValue_none {content key : Bytes} (h : lookup content key = none) (value : Bytes) :
    fileGetValue (some content) key value = some (-3, value) := by
  rw [fileGetValue_lookup, h]

theorem fileGetValue_some {content key res : Bytes} (h : lookup content key = some res)
    (value : Bytes) : fileGetValue (some content) key value = copyTrimmed res value := by
  rw [fileGetValue_lookup, h]

theorem zero_notMem_lookup {content key res : Bytes} (h : lookup content key = some res) :
    0 ∉ res := by
  obtain ⟨line, hfind, rfl⟩ := Option.map_eq_some_iff.1 h
  obtain ⟨raw, -, rfl⟩ := List.mem_map.1 (List.mem_of_find?_eq_some hfind)
  intro hmem
  have hsub : valueText (lineString raw) ⊆ lineString raw :=
    List.Subset.trans (List.drop_subset _ _) (List.dropWhile_suffix _).subset
  exact zero_notMem_lineString raw (hsub hmem)

theorem length_lookup_lt_size {content key res : Bytes} (h : lookup content key = some res) :
    res.length < KV_SIZE := by
  obtain ⟨line, hfind, rfl⟩ := Option.map_eq_some_iff.1 h
  obtain ⟨raw, hraw, rfl⟩ := List.mem_map.1 (List.mem_of_find?_eq_some hfind)
  have hempty : ([] : Bytes).length < LINE_MAX := Nat.zero_lt_succ 254
  have hlen : raw.length ≤ LINE_MAX := length_le_of_mem_cut hempty hraw
  obtain ⟨-, rest, hstring⟩ :=
    contains_of_mem (List.mem_append_right raw (List.mem_singleton_self 0))
  have hsize := congrArg List.length hstring
  have hmax : LINE_MAX = 255 := rfl
  have hkv : KV_SIZE = 256 := rfl
  have hsub : (valueText (lineString raw)).length ≤ (lineString raw).length :=
    List.Sublist.length_le
      (List.Sublist.trans (List.drop_sublist _ _) (List.dropWhile_suffix _).sublist)
  simp only [List.length_append, List.length_cons, List.length_nil] at hsize
  rw [lineString] at hsub ⊢
  omega

theorem ValidValue.delBlank {value e : Bytes} (h : ValidValue value) (he : ∀ c ∈ e, isspace c) :
    ParseKv.delBlank (value ++ e) = value := by
  obtain ⟨c, v, hvalue⟩ := List.exists_cons_of_ne_nil h.ne_nil
  have hc : isspace c = false := h.first c (by rw [hvalue]; rfl)
  have hword : ∃ c ∈ value ++ e, isspace c = false := ⟨c, by rw [hvalue]; simp, hc⟩
  rw [delBlank_eq_trim_iff.2 (.inr hword)]
  exact trim_append (a := []) (fun c hc => absurd hc List.not_mem_nil) he ⟨h.first, h.last⟩

/-- A lookup that finds the key leaves the trimmed text. -/
theorem copyTrimmed_zeros {res : Bytes} {n : Nat} (hres : 0 ∉ res) (hint : res.length ≤ INT_MAX)
    (hn : res.length < n) :
    ∃ buf, copyTrimmed res (List.replicate n 0) = some (0, buf) ∧ cstr buf = delBlank res := by
  obtain ⟨buf, hcopy, hbuf⟩ := contains_strncpy hres hn
  obtain ⟨buf', htrim, hstring⟩ := contains_kvDelBlank hbuf hint
  refine ⟨buf', ?_, hstring.cstr_eq⟩
  rw [copyTrimmed, hcopy]
  simp only [htrim, Option.bind_eq_bind, Option.bind_some]

/-- A lookup of any file into a zero-filled buffer that is large enough. -/
theorem fileGetValue_zeros_iff {content key value : Bytes} {n : Nat} (hn : KV_SIZE ≤ n) :
    (∃ buf, fileGetValue (some content) key (List.replicate n 0) = some (0, buf) ∧
      cstr buf = value) ↔ ∃ res, lookup content key = some res ∧ delBlank res = value := by
  cases hlookup : lookup content key with
  | none =>
    rw [fileGetValue_none hlookup]
    constructor
    · rintro ⟨buf, hrun, -⟩
      injection hrun with hrun
      injection hrun with hcode
      exact absurd hcode (by decide)
    · rintro ⟨res, hres, -⟩
      cases hres
  | some res =>
    obtain ⟨buf, hcopy, hstring⟩ := copyTrimmed_zeros (zero_notMem_lookup hlookup)
      (Nat.le_trans (Nat.le_of_lt (length_lookup_lt_size hlookup)) (by decide))
      (Nat.lt_of_lt_of_le (length_lookup_lt_size hlookup) hn)
    rw [fileGetValue_some hlookup, hcopy]
    constructor
    · rintro ⟨buf', hrun, hvalue⟩
      injection hrun with hrun
      injection hrun with _ hbuf
      exact ⟨res, rfl, hstring.symm.trans (hbuf ▸ hvalue)⟩
    · rintro ⟨res', hres', hvalue⟩
      rw [← Option.some.inj hres'] at hvalue
      exact ⟨buf, rfl, hstring.trans hvalue⟩

end ParseKv
end CFunction
