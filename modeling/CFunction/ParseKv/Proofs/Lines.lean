import CFunction.Misc.Table
import CFunction.ParseKv.ParseKv

/-!
# One line of the file

A line `k=v` is read back whole, is matched by its own key only, and gets a new value in place.
-/

namespace CFunction
namespace ParseKv

open CString

abbrev nl : UInt8 := ascii '\n'
abbrev equals : UInt8 := ascii '='

/-- A key: not empty, without white space, `=` and NUL, and no longer than an `int` can tell. -/
structure ValidKey (key : Bytes) : Prop where
  length_int : key.length ≤ INT_MAX
  ne_nil : key ≠ []
  no_space : ∀ c ∈ key, isspace c = false
  no_equals : equals ∉ key
  no_nul : 0 ∉ key

/-- A value: not empty, without newline and NUL, and not beginning or ending with white space. -/
structure ValidValue (value : Bytes) : Prop where
  ne_nil : value ≠ []
  no_nl : nl ∉ value
  no_nul : 0 ∉ value
  first : ∀ c, value.head? = some c → isspace c = false
  last : ∀ c, value.getLast? = some c → isspace c = false

/-- A pair that fits into a line. -/
structure Valid (key value : Bytes) : Prop where
  validKey : ValidKey key
  validValue : ValidValue value
  fits : key.length + value.length ≤ 253

instance (key : Bytes) : Decidable (ValidKey key) :=
  decidable_of_iff (key.length ≤ INT_MAX ∧ key ≠ [] ∧ key.all (! isspace ·) = true ∧
      equals ∉ key ∧ 0 ∉ key)
    ⟨fun ⟨hint, hne, hspace, hequals, hnul⟩ =>
        ⟨hint, hne, fun c hc => by simpa using List.all_eq_true.1 hspace c hc, hequals, hnul⟩,
      fun h => ⟨h.length_int, h.ne_nil,
        List.all_eq_true.2 fun c hc => by simpa using h.no_space c hc, h.no_equals, h.no_nul⟩⟩

instance (value : Bytes) : Decidable (ValidValue value) :=
  decidable_of_iff (value ≠ [] ∧ nl ∉ value ∧ 0 ∉ value ∧
      value.head?.all (! isspace ·) = true ∧ value.getLast?.all (! isspace ·) = true)
    ⟨fun ⟨hne, hnl, hnul, hfirst, hlast⟩ => ⟨hne, hnl, hnul,
        fun c hc => by simpa [hc] using hfirst, fun c hc => by simpa [hc] using hlast⟩,
      fun h => ⟨h.ne_nil, h.no_nl, h.no_nul,
        (Option.all_eq_true _ _).2 fun c hc => by simpa using h.first c hc,
        (Option.all_eq_true _ _).2 fun c hc => by simpa using h.last c hc⟩⟩

instance (key value : Bytes) : Decidable (Valid key value) :=
  decidable_of_iff (ValidKey key ∧ ValidValue value ∧ key.length + value.length ≤ 253)
    ⟨fun ⟨hkey, hvalue, hfits⟩ => ⟨hkey, hvalue, hfits⟩,
      fun h => ⟨h.validKey, h.validValue, h.fits⟩⟩

theorem ValidKey.no_nl {key : Bytes} (h : ValidKey key) : nl ∉ key := by
  intro hmem
  exact absurd (h.no_space nl hmem) (by decide)

theorem kvLine_eq (key value : Bytes) : kvLine key value = (key ++ equals :: value) ++ [nl] := rfl

theorem kvLine_length (key value : Bytes) :
    (kvLine key value).length = key.length + value.length + 2 := by
  simp only [kvLine, List.length_append, List.length_cons, List.length_nil]
  omega

theorem Valid.zero_notMem {key value : Bytes} (h : Valid key value) : 0 ∉ kvLine key value := by
  simp only [kvLine, List.mem_append, List.mem_cons, List.not_mem_nil, or_false, not_or]
  exact ⟨⟨h.validKey.no_nul, by decide, h.validValue.no_nul⟩, by decide⟩

theorem Valid.nl_notMem {key value : Bytes} (h : Valid key value) :
    nl ∉ key ++ equals :: value := by
  simp only [List.mem_append, List.mem_cons, not_or]
  exact ⟨h.validKey.no_nl, by decide, h.validValue.no_nl⟩

/-! ### Reading -/

theorem readLine_eq {s : Bytes} (hs : nl ∉ s) (rest : Bytes) {n : Nat} (hn : s.length < n) :
    readLine n (s ++ nl :: rest) = (s ++ [nl], false) := by
  induction s generalizing n with
  | nil =>
    obtain ⟨n, rfl⟩ := Nat.exists_eq_add_one.2 hn
    rfl
  | cons b s ih =>
    obtain ⟨n, rfl⟩ : ∃ m, n = m + 1 := Nat.exists_eq_add_one.2 (by omega)
    rw [List.mem_cons, not_or] at hs
    rw [List.length_cons] at hn
    rw [List.cons_append, readLine, if_neg (Ne.symm hs.1), ih hs.2 (by omega)]
    rfl

/-- `fgets` in front of a line. -/
theorem fgets_line {linebuf : Bytes} {fp : Stream} {key value rest : Bytes}
    (h : Valid key value) (hbuf : linebuf.length = KV_SIZE)
    (hrest : fp.rest = kvLine key value ++ rest) :
    ∃ linebuf', fgets linebuf KV_SIZE fp =
        some (linebuf', ⟨fp.before ++ kvLine key value, rest, fp.eof⟩) ∧
      Contains linebuf' (kvLine key value) ∧ linebuf'.length = KV_SIZE := by
  have hfits := h.fits
  have hsize : KV_SIZE = 256 := rfl
  have hread : readLine (KV_SIZE - 1) fp.rest = (kvLine key value, false) := by
    rw [hrest, kvLine_eq, List.append_assoc]
    refine readLine_eq h.nl_notMem rest ?_
    simp only [List.length_append, List.length_cons]
    omega
  have hne : kvLine key value ≠ [] := by simp [kvLine]
  obtain ⟨linebuf', hcopy, hcontains, hlen⟩ := @contains_strcpy linebuf [] (kvLine key value) rfl
    List.not_mem_nil h.zero_notMem (by rw [kvLine_length, List.length_nil]; omega)
  refine ⟨linebuf', ?_, hcontains, hlen.trans hbuf⟩
  rw [strcpy, List.length_nil] at hcopy
  simp only [fgets, hread, if_neg hne, hcopy, Option.bind_eq_bind, Option.bind_some]
  rw [hrest, List.drop_left, Bool.or_false]

/-- `fgets` at the end of the file. -/
theorem fgets_end {linebuf : Bytes} {fp : Stream} (hrest : fp.rest = []) :
    fgets linebuf KV_SIZE fp = some (linebuf, ⟨fp.before, [], true⟩) := by
  simp [fgets, hrest, KV_SIZE, readLine]

/-! ### Matching -/

theorem kvGetKey_kvLine {key : Bytes} (h : ValidKey key) (value : Bytes) :
    kvGetKey (kvLine key value) = kvLine key value := by
  obtain ⟨c, key', rfl⟩ := List.exists_cons_of_ne_nil h.ne_nil
  have hc := h.no_space c List.mem_cons_self
  unfold kvGetKey kvLine
  rw [List.cons_append, List.cons_append, List.dropWhile_cons_of_neg (by simp [hc])]

theorem kvGetValue_eq {key : Bytes} (h : equals ∉ key) (s : Bytes) :
    kvGetValue (key ++ equals :: s) = some (key.length + 1) := by
  have hfind : (key ++ equals :: s).findIdx? (· = equals) = some key.length := by
    induction key with
    | nil => rfl
    | cons c key ih =>
      rw [List.mem_cons, not_or] at h
      have hc : (decide (c = equals)) = false := decide_eq_false (Ne.symm h.1)
      rw [List.cons_append, List.findIdx?_cons, hc, ih h.2]
      simp
  rw [kvGetValue, hfind]
  rfl

/-! ### Writing -/

/-- The line of the key gets the new value. -/
theorem replaceValue_eq {linebuf key value old : Bytes} (hbuf : linebuf.length = KV_SIZE)
    (h : Valid key value) (hold : Contains linebuf (kvLine key old)) :
    ∃ linebuf', replaceValue linebuf value = some linebuf' ∧
      Contains linebuf' (kvLine key value) ∧ linebuf'.length = KV_SIZE := by
  have hfits := h.fits
  have hsize : KV_SIZE = 256 := rfl
  have hkey : (key ++ [equals]).length = key.length + 1 := by simp
  have htake : linebuf.take (key ++ [equals]).length = key ++ [equals] := by
    obtain ⟨-, rest, rfl⟩ := hold
    rw [show kvLine key old ++ 0 :: rest = (key ++ [equals]) ++ (old ++ [nl] ++ 0 :: rest) by
      simp [kvLine]]
    exact List.take_left
  have hnul : 0 ∉ key ++ [equals] := by
    rw [List.mem_append, List.mem_singleton]
    exact not_or.2 ⟨h.validKey.no_nul, by decide⟩
  obtain ⟨buf₁, hcopy, hcontains, hlen⟩ :=
    contains_strcpy htake hnul h.validValue.no_nul (by omega)
  rw [hkey] at hcopy
  have hchange : kvChangeValue linebuf value = some (buf₁, 0) := by
    rw [kvChangeValue, hold.cstr_eq, kvLine, List.append_assoc, List.cons_append,
      kvGetValue_eq h.validKey.no_equals]
    simp only [hcopy, Option.bind_eq_bind, Option.bind_some]
  -- the value does not end with a newline, so that one is put behind it
  obtain ⟨init, c, hvalue⟩ : ∃ init c, value = init ++ [c] := by
    rcases List.eq_nil_or_concat value with hnil | ⟨init, c, hconcat⟩
    · exact absurd hnil h.validValue.ne_nil
    · exact ⟨init, c, hconcat.trans List.concat_eq_append⟩
  have hc : c ≠ nl := fun hnl => h.validValue.no_nl (by rw [hvalue, hnl]; simp)
  have hlast : load buf₁ (((key ++ [equals] ++ value).length : Int) - 1) = some c := by
    obtain ⟨-, rest, rfl⟩ := hcontains
    have hpos : ((key ++ [equals] ++ value).length : Int) - 1 =
        ((key ++ [equals] ++ init).length : Nat) := by
      rw [hvalue]
      simp only [List.length_append, List.length_singleton]
      omega
    rw [hpos, load_nat, hvalue, ← List.append_assoc, List.append_assoc (key ++ [equals] ++ init),
      List.getElem?_append_right (Nat.le_refl _), Nat.sub_self]
    rfl
  have htake₁ : buf₁.take (key ++ [equals] ++ value).length = key ++ [equals] ++ value := by
    obtain ⟨-, rest, rfl⟩ := hcontains
    exact List.take_left
  obtain ⟨buf₂, hnewline, hfinal, hlen₂⟩ := contains_strcpy htake₁ hcontains.1
    (show 0 ∉ [nl] by decide) (by simp only [List.length_append, List.length_singleton]; omega)
  refine ⟨buf₂, ?_, ?_, hlen₂.trans (hlen.trans hbuf)⟩
  · simp only [replaceValue, hchange, hcontains.strlen_eq, hlast, Option.bind_eq_bind,
      Option.bind_some]
    rw [if_pos hc]
    exact hnewline
  · rw [kvLine]
    simpa using hfinal

end ParseKv
end CFunction
