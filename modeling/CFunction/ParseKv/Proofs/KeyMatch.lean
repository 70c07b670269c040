import CFunction.ParseKv.Proofs.DelBlank
import CFunction.ParseKv.Proofs.Lines

/-!
# The key of a line

`kv_parse_kv_to_kv` takes all that stands in front of the first `=` for the key, trimmed.
`kv_is_key_equal` compares the first word only, and looks for the `=` anywhere behind it.
-/

namespace CFunction
namespace ParseKv

open CString Trim

/-- What may stand behind a key: white space, or `=`. -/
def isSeparator (c : UInt8) : Bool := c = equals || isspace c

theorem ValidKey.not_separator {key : Bytes} (h : ValidKey key) {c : UInt8} (hc : c ∈ key) :
    isSeparator c = false := by
  have hne : c ≠ equals := fun he => h.no_equals (he ▸ hc)
  rw [isSeparator, decide_eq_false hne, h.no_space c hc]
  rfl

/-- A list has one word in front of its first separator. -/
theorem ValidKey.unique {key key' t t' : Bytes} {c c' : UInt8} (h : ValidKey key)
    (h' : ValidKey key') (hc : isSeparator c) (hc' : isSeparator c')
    (heq : key ++ c :: t = key' ++ c' :: t') : key = key' := by
  have hword : ∀ {k : Bytes} {d : UInt8} {u : Bytes}, ValidKey k → isSeparator d →
      (k ++ d :: u).takeWhile (fun x => !isSeparator x) = k := by
    intro k d u hk hd
    have hall : ∀ x ∈ k, (!isSeparator x) = true := by
      intro x hx
      rw [hk.not_separator hx]
      rfl
    rw [List.takeWhile_append_of_pos hall, List.takeWhile_cons, hd]
    exact List.append_nil k
  rw [← hword h hc (u := t), heq, hword h' hc']

/-- The matcher finds the key at the start, behind blanks, and a separator behind it. -/
theorem kvIsKeyEqual_iff {str key : Bytes} (hint : key.length ≤ INT_MAX) :
    kvIsKeyEqual str key = true ↔
      ∃ c t, kvGetKey str = key ++ c :: t ∧ (c = equals ∨ isspace c ∧ equals ∈ kvGetKey str) := by
  rw [kvIsKeyEqual, intLength_eq, toInt32_eq_nat rfl hint, toSize_nat hint, Int.toNat_natCast]
  generalize kvGetKey str = pstr
  simp only [Bool.and_eq_true, Bool.or_eq_true, decide_eq_true_eq, strncmpEq, List.take_length,
    List.contains_iff_mem]
  constructor
  · rintro ⟨htake, hnext⟩
    have hsplit := List.take_append_drop key.length pstr
    rw [htake] at hsplit
    cases hdrop : pstr.drop key.length with
    | nil =>
      rw [hdrop, List.append_nil] at hsplit
      have hzero : pstr.getD key.length 0 = 0 := by simp [← hsplit]
      rw [hzero] at hnext
      rcases hnext with ⟨hspace, -⟩ | hequals
      · exact absurd hspace (by decide)
      · exact absurd hequals (by decide)
    | cons c t =>
      rw [hdrop] at hsplit
      rw [← hsplit, getD_middle] at hnext
      refine ⟨c, t, hsplit.symm, ?_⟩
      rw [← hsplit]
      exact hnext.symm.imp Eq.symm id
  · rintro ⟨c, t, rfl, hc⟩
    rw [List.take_left, getD_middle]
    exact ⟨rfl, hc.symm.imp id Eq.symm⟩

/-- A key in front of an `=`. -/
theorem kvIsKeyEqual_of_separator {str key t : Bytes} {c : UInt8} (hint : key.length ≤ INT_MAX)
    (hc : isSeparator c) (hstr : kvGetKey str = key ++ c :: t) (hequals : equals ∈ kvGetKey str) :
    kvIsKeyEqual str key = true := by
  refine (kvIsKeyEqual_iff hint).2 ⟨c, t, hstr, ?_⟩
  rw [isSeparator, Bool.or_eq_true, decide_eq_true_eq] at hc
  exact hc.imp id fun hspace => ⟨hspace, hequals⟩

theorem kvIsKeyEqual_separator {str key : Bytes} (hint : key.length ≤ INT_MAX)
    (h : kvIsKeyEqual str key = true) :
    ∃ c t, kvGetKey str = key ++ c :: t ∧ isSeparator c := by
  obtain ⟨c, t, hstr, hc⟩ := (kvIsKeyEqual_iff hint).1 h
  refine ⟨c, t, hstr, ?_⟩
  rw [isSeparator, Bool.or_eq_true, decide_eq_true_eq]
  exact hc.imp id And.left

/-- A line is matched by its own key only. -/
theorem kvIsKeyEqual_kvLine {key' key : Bytes} (h' : ValidKey key') (h : ValidKey key)
    (value : Bytes) : kvIsKeyEqual (kvLine key' value) key = decide (key' = key) := by
  have hline : kvGetKey (kvLine key' value) = key' ++ equals :: (value ++ [nl]) := by
    rw [kvGetKey_kvLine h', kvLine, List.append_assoc, List.cons_append]
  have hequals : isSeparator equals := by decide
  rw [Bool.eq_iff_iff, decide_eq_true_eq]
  constructor
  · intro hmatch
    obtain ⟨c, t, hstr, hc⟩ := kvIsKeyEqual_separator h.length_int hmatch
    exact h'.unique h hequals hc (hline.symm.trans hstr)
  · rintro rfl
    refine kvIsKeyEqual_of_separator h.length_int hequals hline ?_
    rw [hline]
    exact List.mem_append_right key' List.mem_cons_self

/-! ### The parser -/

/-- What stands in front of the first `=`. -/
def keyText (line : Bytes) : Bytes := line.takeWhile (· ≠ equals)

/-- What stands behind it. -/
def valueText (line : Bytes) : Bytes := (line.dropWhile (· ≠ equals)).drop 1

theorem keyText_append {pre : Bytes} (h : equals ∉ pre) (rest : Bytes) :
    keyText (pre ++ equals :: rest) = pre :=
  takeWhile_ne_append h rest

theorem valueText_append {pre : Bytes} (h : equals ∉ pre) (rest : Bytes) :
    valueText (pre ++ equals :: rest) = rest := by
  rw [valueText, dropWhile_ne_append h]
  rfl

theorem exists_keyText {line : Bytes} (h : equals ∈ line) :
    equals ∉ keyText line ∧ line = keyText line ++ equals :: valueText line := by
  obtain ⟨pre, rest, rfl, hpre⟩ := List.eq_append_cons_of_mem h
  rw [keyText_append hpre, valueText_append hpre]
  exact ⟨hpre, rfl⟩

/-- The parser cuts at the first `=` and trims both parts. -/
theorem kvParseKvToKv_eq {line : Bytes} (h : equals ∈ line) (hnul : 0 ∉ line)
    (hint : line.length ≤ INT_MAX) {n m : Nat} (hn : (keyText line).length < n)
    (hm : (valueText line).length < m) :
    ∃ k v, kvParseKvToKv line (List.replicate n 0) (List.replicate m 0) = some (0, k, v) ∧
      cstr k = delBlank (keyText line) ∧ cstr v = delBlank (valueText line) := by
  obtain ⟨hpre, hline⟩ := exists_keyText h
  generalize keyText line = pre at *
  generalize valueText line = rest at *
  subst hline
  rw [List.length_append, List.length_cons] at hint
  have hfind : (pre ++ equals :: rest).findIdx? (· = equals) = some pre.length := by
    obtain ⟨i, hi, hsucc⟩ := Option.map_eq_some_iff.1 (kvGetValue_eq hpre rest)
    rw [hi, Nat.succ.inj hsucc]
  have hkey : 0 ∉ pre := fun h => hnul (List.mem_append_left _ h)
  have hrest : 0 ∉ rest := fun h => hnul (List.mem_append_right _ (List.mem_cons_of_mem _ h))
  obtain ⟨k, hk, hkeeps⟩ := contains_strncpy hkey hn
  obtain ⟨v, hv, hvkeeps⟩ := contains_strncpy hrest hm
  obtain ⟨k', hk', hktrim⟩ := contains_kvDelBlank hkeeps (by omega)
  obtain ⟨v', hv', hvtrim⟩ := contains_kvDelBlank hvkeeps (by omega)
  refine ⟨k', v', ?_, hktrim.cstr_eq, hvtrim.cstr_eq⟩
  have hcopy : strncpy (List.replicate n 0) (pre ++ equals :: rest) pre.length = some k := by
    rw [← hk, strncpy, strncpy, List.take_left, List.take_length]
    simp
  have hdrop : (pre ++ equals :: rest).drop (pre.length + 1) = rest := by
    rw [List.append_cons]
    exact List.drop_left' (by simp)
  rw [kvParseKvToKv, hfind]
  simp only [hcopy, hk', hdrop, hv, hv', Option.bind_eq_bind, Option.bind_some]

/-! ### The two of them -/

/-- The trimmed text in front of the first `=` goes on behind the key, with white space first. -/
def WordBehind (line key : Bytes) : Prop :=
  ∃ c, isspace c ∧ key ++ [c] <+: trim isspace (keyText line)

/-- What the matcher looks at: the trimmed key text, and a separator behind it. -/
theorem kvGetKey_line {line : Bytes} (h : equals ∈ line) (hne : trim isspace (keyText line) ≠ []) :
    ∃ d t, isSeparator d ∧ equals ∈ d :: t ∧
      kvGetKey line = trim isspace (keyText line) ++ d :: t := by
  obtain ⟨-, hline⟩ := exists_keyText h
  obtain ⟨a, b, hsplit, ha, hb, htight⟩ := exists_trim isspace (keyText line)
  have hbytes : line = a ++ (trim isspace (keyText line) ++ (b ++ equals :: valueText line)) := by
    calc line
        = keyText line ++ equals :: valueText line := hline
      _ = (a ++ trim isspace (keyText line) ++ b) ++ equals :: valueText line := by rw [← hsplit]
      _ = _ := by simp only [List.append_assoc]
  have hskip : kvGetKey line = trim isspace (keyText line) ++ (b ++ equals :: valueText line) := by
    have hfirst : ∀ c, (trim isspace (keyText line) ++ (b ++ equals :: valueText line)).head? =
        some c → isspace c = false := by
      intro c hc
      rw [List.head?_append_of_ne_nil _ hne] at hc
      exact htight.first c hc
    conv_lhs => rw [kvGetKey, hbytes, List.dropWhile_append_of_pos ha]
    exact dropWhile_of_first hfirst
  cases b with
  | nil => exact ⟨equals, valueText line, by decide, List.mem_cons_self, hskip⟩
  | cons d b =>
    refine ⟨d, b ++ equals :: valueText line, ?_, by simp, hskip⟩
    rw [isSeparator, hb d List.mem_cons_self, Bool.or_true]

theorem not_equals_mem_trim (line : Bytes) : equals ∉ trim isspace (keyText line) := by
  intro h
  obtain ⟨a, b, hsplit, -⟩ := exists_trim isspace (keyText line)
  have hmem : equals ∈ keyText line := by
    rw [hsplit]
    exact List.mem_append_left b (List.mem_append_right a h)
  have hkeep := List.mem_takeWhile_imp hmem
  exact absurd rfl (of_decide_eq_true hkeep)

/-- The matcher accepts the trimmed key text, and its first word. -/
theorem kvIsKeyEqual_line {line key : Bytes} (h : equals ∈ line)
    (hne : trim isspace (keyText line) ≠ []) (hkey : ValidKey key) :
    kvIsKeyEqual line key = true ↔ trim isspace (keyText line) = key ∨ WordBehind line key := by
  obtain ⟨d, t, hd, hmem, hline⟩ := kvGetKey_line h hne
  have hequals : equals ∈ kvGetKey line := hline ▸ List.mem_append_right _ hmem
  have hfree := not_equals_mem_trim line
  rw [WordBehind]
  generalize trim isspace (keyText line) = core at hne hline hfree ⊢
  constructor
  · intro hmatch
    obtain ⟨c, u, hstr, hc⟩ := kvIsKeyEqual_separator hkey.length_int hmatch
    rw [hline] at hstr
    rcases List.append_eq_append_iff.1 hstr with ⟨v, hv, hrest⟩ | ⟨v, hv, hrest⟩
    · -- the key goes on behind the core, where a separator stands
      cases v with
      | nil => exact .inl (by rw [hv, List.append_nil])
      | cons e v =>
        injection hrest with he
        have hmem : d ∈ key := by
          rw [hv, he]
          exact List.mem_append_right core List.mem_cons_self
        exact absurd hd (by rw [hkey.not_separator hmem]; decide)
    · cases v with
      | nil => exact .inl (by rw [hv, List.append_nil])
      | cons e v =>
        injection hrest with he
        refine .inr ⟨e, ?_, v, by rw [hv]; simp⟩
        have hmem : e ∈ core := by
          rw [hv]
          exact List.mem_append_right key List.mem_cons_self
        have hother : e ≠ equals := fun heq => hfree (heq ▸ hmem)
        rw [he, isSeparator, Bool.or_eq_true, decide_eq_true_eq] at hc
        exact hc.resolve_left hother
  · rintro (rfl | ⟨c, hc, v, hv⟩)
    · exact kvIsKeyEqual_of_separator hkey.length_int hd hline hequals
    · refine kvIsKeyEqual_of_separator (c := c) (t := v ++ d :: t) hkey.length_int ?_ ?_ hequals
      · rw [isSeparator, hc, Bool.or_true]
      · rw [hline, ← hv]
        simp

/-- The matcher and the parser agree on a key, for strings whose length is an `int`, exactly when no
other word stands behind it in front of the first `=`. -/
theorem keyMatch_iff {line key : Bytes} (h : equals ∈ line) (hnul : 0 ∉ line)
    (hint : line.length ≤ INT_MAX) (hword : ∃ c ∈ keyText line, isspace c = false)
    (hkey : ValidKey key) {n m : Nat}
    (hn : (keyText line).length < n) (hm : (valueText line).length < m) :
    ∃ k v, kvParseKvToKv line (List.replicate n 0) (List.replicate m 0) = some (0, k, v) ∧
      ((kvIsKeyEqual line key = true ↔ cstr k = key) ↔ ¬ WordBehind line key) := by
  obtain ⟨k, v, hparse, hk, -⟩ := kvParseKvToKv_eq h hnul hint hn hm
  refine ⟨k, v, hparse, ?_⟩
  have hne : trim isspace (keyText line) ≠ [] := by
    obtain ⟨c, hc, hspace⟩ := hword
    intro hnil
    rw [trim_eq_nil_iff.1 hnil c hc] at hspace
    cases hspace
  have hone : trim isspace (keyText line) = key → ¬ WordBehind line key := by
    rintro hall ⟨c, -, hc⟩
    have hlen := hc.length_le
    rw [hall, List.length_append, List.length_singleton] at hlen
    exact Nat.not_succ_le_self _ hlen
  rw [kvIsKeyEqual_line h hne hkey, hk, delBlank_eq_trim_iff.2 (.inr hword)]
  constructor
  · intro hagree hbehind
    exact hone (hagree.1 (.inr hbehind)) hbehind
  · intro hno
    exact ⟨fun hor => hor.resolve_right hno, .inl⟩

theorem keyMatch_iff_blanks : ∃ k v,
    kvParseKvToKv (text " k = v\n") (List.replicate 4 0) (List.replicate 4 0) = some (0, k, v) ∧
      ((kvIsKeyEqual (text " k = v\n") (text "k") = true ↔ cstr k = text "k") ↔
        ¬ WordBehind (text " k = v\n") (text "k")) :=
  keyMatch_iff (by decide) (by decide) (by decide) ⟨ascii 'k', by decide, by decide⟩ (by decide)
    (by decide) (by decide)

/-- The matcher takes the first of two words for the key, the parser both. -/
theorem keyMatch_two_words : ∃ k v,
    kvParseKvToKv (text "k w=v") (List.replicate 8 0) (List.replicate 8 0) = some (0, k, v) ∧
      kvIsKeyEqual (text "k w=v") (text "k") = true ∧ ¬ cstr k = text "k" :=
  ⟨text "k w" ++ List.replicate 5 0, text "v" ++ List.replicate 7 0, by decide, by decide,
    by decide⟩

end ParseKv
end CFunction
