import CFunction.Json.Item

/-!
# Comparing names

`compare_strings`, which the names of an object are sorted by. Only the sign of its result is
used, and `strcmp` has the difference of the first two characters that differ.
-/

namespace CFunction
namespace Json

open CString

/-- `tolower` of the C locale. -/
def tolower (c : UInt8) : UInt8 := if 65 ≤ c ∧ c ≤ 90 then c + 32 else c

def strcmp : Bytes → Bytes → Int
  | [], [] => 0
  | [], b :: _ => -b.toNat
  | a :: _, [] => a.toNat
  | a :: s, b :: t => if a = b then strcmp s t else a.toNat - b.toNat

/-- How a name is spelled when the case of its letters does not count. -/
def spelling (caseSensitive : Bool) (s : Bytes) : Bytes :=
  if caseSensitive then s else s.map tolower

/-- `compare_strings` -/
def compareStrings (caseSensitive : Bool) : Option Str → Option Str → Int
  | some string1, some string2 =>
    strcmp (spelling caseSensitive string1.val) (spelling caseSensitive string2.val)
  | _, _ => 1

/-! ### The order of the names -/

theorem strcmp_self (s : Bytes) : strcmp s s = 0 := by
  induction s with
  | nil => rfl
  | cons a s ih => rw [strcmp, if_pos rfl, ih]

theorem strcmp_swap (s t : Bytes) : strcmp t s = -strcmp s t := by
  induction s generalizing t with
  | nil =>
    cases t with
    | nil => rfl
    | cons b t => rw [strcmp, strcmp, Int.neg_neg]
  | cons a s ih =>
    cases t with
    | nil => rfl
    | cons b t =>
      rw [strcmp, strcmp]
      by_cases hab : a = b
      · rw [if_pos hab, if_pos hab.symm, ih]
      · rw [if_neg hab, if_neg (Ne.symm hab), Int.neg_sub]

/-- Bytes that are no NUL. -/
def NulFree (s : Bytes) : Prop := (0 : UInt8) ∉ s

theorem toNat_pos {a : UInt8} (ha : a ≠ 0) : 0 < a.toNat :=
  Nat.pos_of_ne_zero fun h => ha (UInt8.toNat_inj.1 h)

theorem strcmp_lt_trans {s t u : Bytes} (ht : NulFree t) (hst : strcmp s t < 0)
    (htu : strcmp t u < 0) : strcmp s u < 0 := by
  induction s generalizing t u with
  | nil =>
    cases t with
    | nil => exact absurd hst (by decide)
    | cons b t =>
      cases u with
      | nil => rw [strcmp] at htu; omega
      | cons c u =>
        simp only [strcmp] at hst htu ⊢
        have hb : 0 < b.toNat := toNat_pos fun he => ht (he ▸ List.mem_cons_self)
        split at htu
        · rename_i hbc
          rw [← hbc]
          omega
        · omega
  | cons a s ih =>
    cases t with
    | nil => rw [strcmp] at hst; omega
    | cons b t =>
      cases u with
      | nil => rw [strcmp] at htu; omega
      | cons c u =>
        have ht' : NulFree t := fun h => ht (List.mem_cons_of_mem b h)
        rw [strcmp] at hst htu ⊢
        by_cases hab : a = b
        · by_cases hbc : b = c
          · rw [if_pos hab] at hst
            rw [if_pos hbc] at htu
            rw [if_pos (hab.trans hbc)]
            exact ih ht' hst htu
          · rw [if_neg hbc] at htu
            rw [hab, if_neg hbc]
            exact htu
        · rw [if_neg hab] at hst
          by_cases hbc : b = c
          · rw [← hbc, if_neg hab]
            exact hst
          · rw [if_neg hbc] at htu
            have hac : a ≠ c := by
              rintro rfl
              omega
            rw [if_neg hac]
            omega

theorem strcmp_eq_zero_iff {s t : Bytes} (hs : NulFree s) (ht : NulFree t) :
    strcmp s t = 0 ↔ s = t := by
  refine ⟨fun h => ?_, fun h => h ▸ strcmp_self s⟩
  induction s generalizing t with
  | nil =>
    cases t with
    | nil => rfl
    | cons b t =>
      have hb : 0 < b.toNat := toNat_pos fun he => ht (he ▸ List.mem_cons_self)
      rw [strcmp] at h
      omega
  | cons a s ih =>
    have ha : 0 < a.toNat := toNat_pos fun he => hs (he ▸ List.mem_cons_self)
    cases t with
    | nil =>
      rw [strcmp] at h
      omega
    | cons b t =>
      rw [strcmp] at h
      by_cases hab : a = b
      · rw [if_pos hab] at h
        rw [hab, ih (fun hm => hs (List.mem_cons_of_mem a hm))
          (fun hm => ht (List.mem_cons_of_mem b hm)) h]
      · rw [if_neg hab] at h
        exact absurd (UInt8.toNat_inj.1 (by omega)) hab

theorem tolower_eq_zero_iff (c : UInt8) : tolower c = 0 ↔ c = 0 := by
  rw [tolower]
  split
  · rename_i h
    refine iff_of_false ?_ ?_
    · rw [← UInt8.toNat_inj, UInt8.toNat_add]
      simp only [UInt8.le_iff_toNat_le] at h
      have h1 : (65 : UInt8).toNat = 65 := rfl
      have h2 : (90 : UInt8).toNat = 90 := rfl
      have h3 : (32 : UInt8).toNat = 32 := rfl
      have h4 : (0 : UInt8).toNat = 0 := rfl
      omega
    · rintro rfl
      exact absurd h (by decide)
  · exact Iff.rfl

theorem nulFree_spelling (caseSensitive : Bool) (s : Str) :
    NulFree (spelling caseSensitive s.val) := by
  rw [spelling]
  split
  · exact s.property
  · intro h
    obtain ⟨c, hc, hzero⟩ := List.mem_map.1 h
    exact s.property ((tolower_eq_zero_iff c).1 hzero ▸ hc)

/-- The names, as they are sorted. -/
def before (caseSensitive : Bool) (s t : Option Str) : Bool := compareStrings caseSensitive s t < 0

theorem compareStrings_none_left (caseSensitive : Bool) (t : Option Str) :
    compareStrings caseSensitive none t = 1 := by
  cases t <;> rfl

theorem compareStrings_none_right (caseSensitive : Bool) (s : Option Str) :
    compareStrings caseSensitive s none = 1 := by
  cases s <;> rfl

theorem before_trans {caseSensitive : Bool} {s t u : Option Str}
    (hst : before caseSensitive s t) (htu : before caseSensitive t u) :
    before caseSensitive s u := by
  simp only [before, decide_eq_true_eq] at hst htu ⊢
  cases s with
  | none =>
    rw [compareStrings_none_left] at hst
    omega
  | some s =>
    cases t with
    | none =>
      rw [compareStrings_none_right] at hst
      omega
    | some t =>
      cases u with
      | none =>
        rw [compareStrings_none_right] at htu
        omega
      | some u => exact strcmp_lt_trans (nulFree_spelling caseSensitive t) hst htu

theorem before_iff {caseSensitive : Bool} {s t : Str} :
    before caseSensitive (some s) (some t) = true ↔
      strcmp (spelling caseSensitive s.val) (spelling caseSensitive t.val) < 0 :=
  decide_eq_true_iff

theorem not_before_iff {caseSensitive : Bool} {s t : Str} :
    before caseSensitive (some s) (some t) = false ↔
      ¬ strcmp (spelling caseSensitive s.val) (spelling caseSensitive t.val) < 0 :=
  decide_eq_false_iff_not

theorem before_asymm {caseSensitive : Bool} {s t : Str}
    (h : before caseSensitive (some s) (some t) = true) :
    before caseSensitive (some t) (some s) = false := by
  have hswap := strcmp_swap (spelling caseSensitive s.val) (spelling caseSensitive t.val)
  rw [before_iff] at h
  rw [not_before_iff]
  omega

theorem not_before_trans {caseSensitive : Bool} {s t u : Str}
    (hst : before caseSensitive (some t) (some s) = false)
    (htu : before caseSensitive (some u) (some t) = false) :
    before caseSensitive (some u) (some s) = false := by
  have hswap := strcmp_swap (spelling caseSensitive s.val) (spelling caseSensitive t.val)
  rw [not_before_iff] at hst htu ⊢
  intro hus
  rcases Int.lt_trichotomy (strcmp (spelling caseSensitive s.val) (spelling caseSensitive t.val)) 0
    with hlt | heq | hgt
  · exact htu (strcmp_lt_trans (nulFree_spelling caseSensitive s) hus hlt)
  · rw [strcmp_eq_zero_iff (nulFree_spelling caseSensitive s) (nulFree_spelling caseSensitive t)]
      at heq
    exact htu (heq ▸ hus)
  · omega

end Json
end CFunction
