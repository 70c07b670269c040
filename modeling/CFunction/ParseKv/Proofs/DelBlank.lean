import CFunction.Misc.Trim
import CFunction.ParseKv.ParseKv

/-!
# Trimming in place

`kv_del_blank` zeroes the white space at the end of a string and moves the rest to the front. Its
first loop stops at index 0 without looking at it, so that one byte of a blank string is left.
-/

namespace CFunction
namespace ParseKv

open CString Trim

/-- What a call of `kv_del_blank` leaves of a string. -/
def delBlank (s : Bytes) : Bytes := if s.all isspace then s.take 1 else trim isspace s

section Loops

variable {a b x t : Bytes} {y : UInt8}

theorem getD_middle (x t : Bytes) (y : UInt8) : (x ++ y :: t).getD x.length 0 = y := by
  simp

theorem set_middle (x t : Bytes) (y z : UInt8) : (x ++ y :: t).set x.length z = x ++ z :: t := by
  rw [List.set_append_right _ _ (Nat.le_refl _), Nat.sub_self]
  rfl

/-- The first loop, by induction on the blanks at the end. -/
theorem trimEnd_blanks (hb : ∀ c ∈ b, isspace c) : ∀ t,
    trimEnd (x ++ y :: (b ++ t)) (x.length + b.length) =
      trimEnd (x ++ y :: (List.replicate b.length 0 ++ t)) x.length := by
  induction b using List.reverseRecOn with
  | nil => exact fun t => rfl
  | append_singleton b c ih =>
    intro t
    have hc : isspace c := hb c (List.mem_append_right b (List.mem_singleton_self c))
    have hlast : x ++ y :: (b ++ [c] ++ t) = (x ++ y :: b) ++ c :: t := by simp
    have hindex : x.length + (b ++ [c]).length = (x ++ y :: b).length := by
      simp only [List.length_append, List.length_cons, List.length_nil]
    have hsucc : (x ++ y :: b).length = x.length + b.length + 1 := by
      simp only [List.length_append, List.length_cons]
      omega
    have hzeros : List.replicate (b ++ [c]).length (0 : UInt8) ++ t =
        List.replicate b.length 0 ++ 0 :: t := by
      rw [List.length_append, List.length_singleton, List.replicate_succ', List.append_assoc]
      rfl
    have hread := getD_middle (x ++ y :: b) t c
    have hwrite := set_middle (x ++ y :: b) t c 0
    rw [hsucc] at hread hwrite
    rw [hlast, hindex, hsucc, trimEnd, hread, if_pos hc, hwrite, List.append_assoc,
      List.cons_append, ih (fun d hd => hb d (List.mem_append_left _ hd)), hzeros]

/-- The first loop stops in front of a byte that is not blank, and at index 0. -/
theorem trimEnd_stop (h : x = [] ∨ isspace y = false) (t : Bytes) :
    trimEnd (x ++ y :: t) x.length = (x ++ y :: t, x.length) := by
  have hread := getD_middle x t y
  cases hx : x.length with
  | zero => rfl
  | succ n =>
    rw [hx] at hread
    have hy : isspace y = false := by
      refine h.resolve_left ?_
      rintro rfl
      cases hx
    rw [trimEnd, hread, hy]
    rfl

/-- The second loop, by induction on the blanks at the start. -/
theorem skipBlanks_blanks {j : Nat} (ha : ∀ c ∈ a, isspace c) (hy : isspace y = false) :
    ∀ (x : Bytes) (fuel : Nat), x.length + a.length ≤ j → a.length ≤ fuel →
      skipBlanks (x ++ (a ++ y :: t)) j fuel x.length = x.length + a.length := by
  induction a with
  | nil =>
    intro x fuel _ _
    cases fuel with
    | zero => rfl
    | succ fuel =>
      rw [List.nil_append, skipBlanks, getD_middle, hy]
      simp
  | cons c a ih =>
    intro x fuel hj hfuel
    obtain ⟨fuel, rfl⟩ := Nat.exists_eq_add_one.2 (Nat.lt_of_lt_of_le (Nat.succ_pos _) hfuel)
    have hc : isspace c := ha c List.mem_cons_self
    have hnext := ih (fun d hd => ha d (List.mem_cons_of_mem c hd)) (x ++ [c]) fuel
    simp only [List.length_append, List.length_cons, List.length_nil] at hj hfuel hnext
    rw [List.append_assoc] at hnext
    rw [List.cons_append, skipBlanks, getD_middle, if_pos ⟨by omega, hc⟩, List.length_cons]
    refine (hnext (by omega) (by omega)).trans ?_
    omega

end Loops

/-! ### A whole call -/

/-- Of a string whose length is an `int`. -/
theorem kvDelBlank_eq {s : Bytes} (hs : 0 ∉ s) (hint : s.length ≤ INT_MAX) (rest : Bytes) :
    kvDelBlank (s ++ 0 :: rest) =
      let (buf, j) := trimEnd (s ++ 0 :: rest) (s.length - 1)
      let i := skipBlanks buf j j 0
      if i ≠ 0 then strncpy buf (cstr (buf.drop i)) s.length else some buf := by
  have hmax : INT_MAX = 2147483647 := rfl
  have hlen : toInt32 s.length = s.length := toInt32_eq_nat rfl hint
  have hlast : (toInt32 ((s.length : Int) - 1)).toNat = s.length - 1 := by
    rw [toInt32_of_inInt ⟨by omega, by omega⟩]
    omega
  have hsize : toSize (s.length : Int) = s.length := toSize_nat hint
  rw [kvDelBlank, strlen_append_nul rest hs, Option.bind_eq_bind, Option.bind_some]
  generalize toInt32 (s.length : Int) = len at hlen ⊢
  subst hlen
  dsimp only
  rw [hlast, hsize]

/-- The NULs that a call leaves in the place of what it removed. -/
def padding (s : Bytes) : Bytes := List.replicate (s.length - (delBlank s).length) 0

theorem kvDelBlank_blank {s : Bytes} (hs : 0 ∉ s) (hint : s.length ≤ INT_MAX)
    (hall : ∀ c ∈ s, isspace c) (rest : Bytes) :
    kvDelBlank (s ++ 0 :: rest) = some (delBlank s ++ padding s ++ 0 :: rest) := by
  have hblank : delBlank s = s.take 1 := if_pos (List.all_eq_true.2 hall)
  rw [kvDelBlank_eq hs hint, padding, hblank]
  cases s with
  | nil => rfl
  | cons c s =>
    have htrim := trimEnd_blanks (x := []) (y := c)
      (fun d hd => hall d (List.mem_cons_of_mem c hd)) (0 :: rest)
    rw [trimEnd_stop (.inl rfl)] at htrim
    simp only [List.nil_append, List.length_nil, Nat.zero_add] at htrim
    rw [List.cons_append, List.length_cons, Nat.add_sub_cancel, htrim]
    simp [skipBlanks]

theorem cstr_padded {core : Bytes} (h : 0 ∉ core) (n : Nat) (rest : Bytes) :
    cstr (core ++ List.replicate n 0 ++ 0 :: rest) = core := by
  rw [List.append_assoc]
  cases n with
  | zero => exact cstr_append_nul rest h
  | succ n => exact cstr_append_nul _ h

theorem kvDelBlank_word {s : Bytes} (hs : 0 ∉ s) (hint : s.length ≤ INT_MAX)
    (hword : ¬ ∀ c ∈ s, isspace c) (rest : Bytes) :
    kvDelBlank (s ++ 0 :: rest) = some (delBlank s ++ padding s ++ 0 :: rest) := by
  have hdel : delBlank s = trim isspace s := if_neg (fun h => hword (List.all_eq_true.1 h))
  have hne : trim isspace s ≠ [] := fun hnil => hword (trim_eq_nil_iff.1 hnil)
  obtain ⟨a, b, hsplit, ha, hb, htight⟩ := exists_trim isspace s
  rw [padding, hdel]
  generalize trim isspace s = core at hne hsplit htight ⊢
  have hcore : 0 ∉ core := fun h => hs (hsplit ▸ by simp [h])
  have hlen : s.length = a.length + core.length + b.length := by
    rw [hsplit, List.length_append, List.length_append]
  -- the buffer once the end is zeroed
  let buf := a ++ (core ++ List.replicate b.length 0 ++ 0 :: rest)
  obtain ⟨p, y, rfl⟩ : ∃ p y, core = p ++ [y] := by
    rcases List.eq_nil_or_concat core with hnil | ⟨p, y, hconcat⟩
    · exact absurd hnil hne
    · exact ⟨p, y, hconcat.trans List.concat_eq_append⟩
  have hend : trimEnd (s ++ 0 :: rest) (s.length - 1) = (buf, (a ++ p).length) := by
    have hbuf : s ++ 0 :: rest = (a ++ p) ++ y :: (b ++ 0 :: rest) := by
      rw [hsplit]
      simp
    have hlast : s.length - 1 = (a ++ p).length + b.length := by
      rw [List.length_append, List.length_singleton] at hlen
      rw [List.length_append]
      omega
    have hy : isspace y = false := htight.last y List.getLast?_concat
    rw [hbuf, hlast, trimEnd_blanks hb, trimEnd_stop (.inr hy)]
    simp [buf]
  obtain ⟨z, core', hfirst⟩ := List.exists_cons_of_ne_nil hne
  have hskip : skipBlanks buf (a ++ p).length (a ++ p).length 0 = a.length := by
    have hz : isspace z = false := htight.first z (by rw [hfirst]; rfl)
    have hblanks := skipBlanks_blanks (t := core' ++ List.replicate b.length 0 ++ 0 :: rest)
      (j := (a ++ p).length) ha hz [] (a ++ p).length
    simp only [List.nil_append, List.length_nil, Nat.zero_add, List.length_append] at hblanks
    simp only [buf, hfirst, List.length_append]
    exact hblanks (Nat.le_add_right _ _) (Nat.le_add_right _ _)
  rw [kvDelBlank_eq hs hint, hend]
  dsimp only
  rw [hskip]
  by_cases hnil : a = []
  · subst hnil
    have hremoved : s.length - (p ++ [y]).length = b.length := by
      rw [hlen, List.length_nil]
      omega
    rw [hremoved]
    rfl
  · have hpos := List.length_pos_iff.2 hnil
    have hmoved : cstr (buf.drop a.length) = p ++ [y] := by
      rw [List.drop_left]
      exact cstr_padded hcore b.length rest
    have hbehind : buf.drop s.length = 0 :: rest := by
      have hbuf : buf = (a ++ (p ++ [y]) ++ List.replicate b.length 0) ++ 0 :: rest := by
        simp [buf]
      rw [hbuf]
      apply List.drop_left'
      rw [hlen, List.length_append, List.length_append, List.length_replicate]
    have hroom : s.length ≤ buf.length := by
      simp only [buf, List.length_append, List.length_replicate, List.length_cons] at hlen ⊢
      omega
    rw [if_pos (Nat.pos_iff_ne_zero.1 hpos), hmoved, strncpy_padded (by omega) hroom, hbehind]

/-- One call: the string is trimmed in place, the bytes it loses become NULs, and what stands
from its NUL on stays. -/
theorem kvDelBlank_string {s : Bytes} (hs : 0 ∉ s) (hint : s.length ≤ INT_MAX) (rest : Bytes) :
    kvDelBlank (s ++ 0 :: rest) = some (delBlank s ++ padding s ++ 0 :: rest) := by
  by_cases h : ∀ c ∈ s, isspace c
  · exact kvDelBlank_blank hs hint h rest
  · exact kvDelBlank_word hs hint h rest

theorem delBlank_length_le (s : Bytes) : (delBlank s).length ≤ s.length := by
  rw [delBlank]
  split
  · rw [List.length_take]
    exact Nat.min_le_right 1 _
  · exact length_trim_le isspace s

theorem delBlank_subset (s : Bytes) : delBlank s ⊆ s := by
  rw [delBlank]
  split
  · exact List.take_subset 1 s
  · obtain ⟨a, b, hsplit, -⟩ := exists_trim isspace s
    intro c hc
    rw [hsplit]
    exact List.mem_append_left b (List.mem_append_right a hc)

/-- Only of a blank string something is left that `trim` would not leave. -/
theorem delBlank_eq_trim_iff {s : Bytes} :
    delBlank s = trim isspace s ↔ s = [] ∨ ∃ c ∈ s, isspace c = false := by
  rw [delBlank]
  cases hall : s.all isspace with
  | true =>
    have hblank := List.all_eq_true.1 hall
    rw [if_pos rfl, trim_eq_nil_iff.2 hblank]
    constructor
    · intro h
      cases s with
      | nil => exact .inl rfl
      | cons c s => cases h
    · rintro (rfl | ⟨c, hc, hword⟩)
      · rfl
      · rw [hblank c hc] at hword
        cases hword
  | false =>
    rw [if_neg Bool.false_ne_true]
    refine ⟨fun _ => .inr ?_, fun _ => rfl⟩
    obtain ⟨c, hc, hword⟩ := List.all_eq_false.1 hall
    exact ⟨c, hc, Bool.eq_false_iff.2 hword⟩

theorem delBlank_idem (s : Bytes) : delBlank (delBlank s) = delBlank s := by
  by_cases h : ∀ c ∈ s, isspace c
  · have hblank : delBlank s = s.take 1 := if_pos (List.all_eq_true.2 h)
    have hfirst : ∀ c ∈ s.take 1, isspace c := fun c hc => h c (List.mem_of_mem_take hc)
    rw [hblank, delBlank, if_pos (List.all_eq_true.2 hfirst), List.take_take]
    rfl
  · have htrim : delBlank s = trim isspace s := if_neg (fun hall => h (List.all_eq_true.1 hall))
    have hne : trim isspace s ≠ [] := fun hnil => h (trim_eq_nil_iff.1 hnil)
    have htight := trim_of_tight (tight_trim isspace s)
    have hword : ¬ ∀ c ∈ trim isspace s, isspace c := by
      rw [← trim_eq_nil_iff, htight]
      exact hne
    rw [htrim, delBlank, if_neg (fun hall => hword (List.all_eq_true.1 hall)), htight]

/-- What the callers use: the string in a buffer is trimmed. -/
theorem contains_kvDelBlank {buf s : Bytes} (h : Contains buf s) (hint : s.length ≤ INT_MAX) :
    ∃ buf', kvDelBlank buf = some buf' ∧ Contains buf' (delBlank s) := by
  obtain ⟨hs, rest, rfl⟩ := h
  have hne : 0 ∉ delBlank s := fun h => hs (delBlank_subset s h)
  refine ⟨_, kvDelBlank_string hs hint rest, hne, ?_⟩
  rw [padding]
  cases s.length - (delBlank s).length with
  | zero => exact ⟨rest, by simp⟩
  | succ n => exact ⟨List.replicate n 0 ++ 0 :: rest, by simp [List.replicate_succ]⟩

/-- `kv_del_blank` trims the string in `buf`: it leaves everything from the terminator on as it
was, and a second call has nothing to do. -/
def TrimsInPlace (buf : Bytes) : Prop :=
  ∃ buf', kvDelBlank buf = some buf' ∧ cstr buf' = trim isspace (cstr buf) ∧
    (∀ i, (cstr buf).length ≤ i → buf'[i]? = buf[i]?) ∧ kvDelBlank buf' = some buf'

theorem kvDelBlank_behind {s : Bytes} (rest : Bytes) {i : Nat} (hi : s.length ≤ i) :
    (delBlank s ++ padding s ++ 0 :: rest)[i]? = (s ++ 0 :: rest)[i]? := by
  have hlen : (delBlank s ++ padding s).length = s.length := by
    rw [List.length_append, padding, List.length_replicate]
    exact Nat.add_sub_cancel' (delBlank_length_le s)
  rw [List.getElem?_append_right (by omega), List.getElem?_append_right hi, hlen]

/-- A second call. -/
theorem kvDelBlank_again {s : Bytes} (hs : 0 ∉ s) (hint : s.length ≤ INT_MAX) (rest : Bytes) :
    kvDelBlank (delBlank s ++ padding s ++ 0 :: rest) =
      some (delBlank s ++ padding s ++ 0 :: rest) := by
  have hne : 0 ∉ delBlank s := fun h => hs (delBlank_subset s h)
  obtain ⟨rest', hrest⟩ : ∃ rest', padding s ++ 0 :: rest = 0 :: rest' := by
    rw [padding]
    cases s.length - (delBlank s).length with
    | zero => exact ⟨rest, rfl⟩
    | succ n => exact ⟨_, rfl⟩
  have hnone : padding (delBlank s) = [] := by
    rw [padding, delBlank_idem, Nat.sub_self]
    rfl
  rw [List.append_assoc, hrest,
    kvDelBlank_string hne (Nat.le_trans (delBlank_length_le s) hint), delBlank_idem, hnone,
    List.append_nil]

/-- `kv_del_blank` trims a string, whose length is an `int`, exactly when it is empty or holds a
byte that is not white space. -/
theorem trimsInPlace_iff {buf : Bytes} (h : 0 ∈ buf) (hint : (cstr buf).length ≤ INT_MAX) :
    TrimsInPlace buf ↔ cstr buf = [] ∨ ∃ c ∈ cstr buf, isspace c = false := by
  obtain ⟨hs, rest, hbuf⟩ := contains_of_mem h
  generalize cstr buf = s at hs hbuf hint
  subst hbuf
  have hcstr : cstr (delBlank s ++ padding s ++ 0 :: rest) = delBlank s :=
    cstr_padded (fun hmem => hs (delBlank_subset s hmem)) _ rest
  rw [TrimsInPlace, cstr_append_nul rest hs, kvDelBlank_string hs hint, ← delBlank_eq_trim_iff]
  constructor
  · rintro ⟨buf', hbuf', htrim, -⟩
    rw [← htrim, ← Option.some.inj hbuf', hcstr]
  · intro htrim
    exact ⟨_, rfl, hcstr.trans htrim, fun i hi => kvDelBlank_behind rest hi,
      kvDelBlank_again hs hint rest⟩

theorem trimsInPlace_iff_padded : TrimsInPlace (text " a b\n" ++ [0, 7]) ↔
    cstr (text " a b\n" ++ [0, 7]) = [] ∨ ∃ c ∈ cstr (text " a b\n" ++ [0, 7]), isspace c = false :=
  trimsInPlace_iff (by decide) (by decide)

/-- Of a blank string one blank is left. -/
theorem not_trimsInPlace_blank : ¬ TrimsInPlace (text "  " ++ [0]) := by
  rintro ⟨buf', hbuf', htrim, -⟩
  have hleft : kvDelBlank (text "  " ++ [0]) = some (text " " ++ [0, 0]) := by decide
  rw [← Option.some.inj (hleft.symm.trans hbuf')] at htrim
  exact absurd htrim (by decide)

end ParseKv
end CFunction
