import Mathlib.Data.List.Basic

/-!
# Strings in byte buffers

A `char` array is the list of its bytes, and the string in it is what stands in front of the
first NUL. An access outside the array, and a string function on an array without a NUL, has
no result.
-/

namespace CFunction
namespace CString

/-- The bytes of a `char` array. -/
abbrev Bytes := List UInt8

/-- The byte of a character constant. -/
def ascii (c : Char) : UInt8 := UInt8.ofNat c.toNat

/-- The bytes of a string constant, without its NUL. -/
def text (s : String) : Bytes := s.toList.map ascii

/-- The string that starts at the first byte. -/
def cstr (buf : Bytes) : Bytes := buf.takeWhile (· ≠ 0)

def strlen (buf : Bytes) : Option Nat := if 0 ∈ buf then some (cstr buf).length else none

/-- Where `pat` starts first in `s`, both without their NUL. -/
def strstr (pat : Bytes) : Bytes → Option Nat
  | [] => if pat.isEmpty then some 0 else none
  | c :: s => if pat.isPrefixOf (c :: s) then some 0 else (strstr pat s).map (· + 1)

/-- `buf[i]` read. -/
def load (buf : Bytes) (i : Int) : Option UInt8 := if 0 ≤ i then buf[i.toNat]? else none

/-- `buf[i] = b`. -/
def store (buf : Bytes) (i : Int) (b : UInt8) : Option Bytes :=
  if 0 ≤ i ∧ i < buf.length then some (buf.set i.toNat b) else none

/-- `isspace` of the C locale. -/
def isspace (c : UInt8) : Bool := (9 ≤ c && c ≤ 13) || c = 32

/-- `bs` written over `buf` from index `off` on. -/
def overwrite (buf : Bytes) (off : Nat) (bs : Bytes) : Option Bytes :=
  if off + bs.length ≤ buf.length then some (buf.take off ++ bs ++ buf.drop (off + bs.length))
  else none

/-- `strcpy(buf + off, s)` and `strcat(buf, s)`. -/
def strcpy (buf : Bytes) (off : Nat) (s : Bytes) : Option Bytes := overwrite buf off (s ++ [0])

def strcat (buf : Bytes) (s : Bytes) : Option Bytes := do
  let len ← strlen buf
  strcpy buf len s

/-- `strncpy(buf, s, n)`: exactly `n` bytes, with NULs behind `s` when it is shorter. -/
def strncpy (buf : Bytes) (s : Bytes) (n : Nat) : Option Bytes :=
  overwrite buf 0 (s.take n ++ List.replicate (n - s.length) 0)

/-- `strncmp(s, t, n) == 0`, both without their NUL. -/
def strncmpEq (s t : Bytes) (n : Nat) : Bool := s.take n = t.take n

theorem prefix_append_cases {α : Type*} {s a b : List α} (h : s <+: a ++ b) :
    s <+: a ∨ ∃ u, s = a ++ u ∧ u <+: b := by
  obtain ⟨t, ht⟩ := h
  rcases List.append_eq_append_iff.1 ht with ⟨u, ha, -⟩ | ⟨u, hs, hb⟩
  · exact Or.inl ⟨u, ha.symm⟩
  · exact Or.inr ⟨u, hs, ⟨t, hb.symm⟩⟩

/-- What stands in front of the first stop. -/
theorem takeWhile_ne_append {α : Type*} [DecidableEq α] {x : α} {l : List α} (h : x ∉ l)
    (t : List α) : (l ++ x :: t).takeWhile (· ≠ x) = l := by
  have hall : ∀ y ∈ l, decide (y ≠ x) = true := fun y hy => decide_eq_true fun he => h (he ▸ hy)
  rw [List.takeWhile_append_of_pos hall, List.takeWhile_cons_of_neg (by simp), List.append_nil]

/-- The first stop, and what stands behind it. -/
theorem dropWhile_ne_append {α : Type*} [DecidableEq α] {x : α} {l : List α} (h : x ∉ l)
    (t : List α) : (l ++ x :: t).dropWhile (· ≠ x) = x :: t := by
  have hall : ∀ y ∈ l, decide (y ≠ x) = true := fun y hy => decide_eq_true fun he => h (he ▸ hy)
  rw [List.dropWhile_append_of_pos hall, List.dropWhile_cons_of_neg (by simp)]

theorem cstr_append_nul {s : Bytes} (rest : Bytes) (h : 0 ∉ s) : cstr (s ++ 0 :: rest) = s :=
  takeWhile_ne_append h rest

/-- A fact about all bytes, checked for each of them. -/
theorem forall_byte {P : UInt8 → Prop} (h : ∀ n < 256, P (UInt8.ofNat n)) (b : UInt8) : P b := by
  have hb := h b.toNat b.toNat_lt
  rwa [UInt8.ofNat_toNat] at hb

theorem strlen_append_nul {s : Bytes} (rest : Bytes) (h : 0 ∉ s) :
    strlen (s ++ 0 :: rest) = some s.length := by
  rw [strlen, if_pos (by simp), cstr_append_nul rest h]

theorem strstr_cons_of_ne {b c : UInt8} (h : b ≠ c) (pat s : Bytes) :
    strstr (b :: pat) (c :: s) = (strstr (b :: pat) s).map (· + 1) := by
  rw [strstr, if_neg]
  simp [List.isPrefixOf, h]

/-- What is found begins with the first byte of the pattern. -/
theorem mem_of_strstr {b : UInt8} {pat : Bytes} :
    ∀ {s : Bytes}, (strstr (b :: pat) s).isSome → b ∈ s
  | [], h => by simp [strstr] at h
  | c :: s, h => by
    by_cases hbc : b = c
    · exact hbc ▸ List.mem_cons_self
    · rw [strstr_cons_of_ne hbc, Option.isSome_map] at h
      exact List.mem_cons_of_mem c (mem_of_strstr h)

theorem strstr_singleton_isSome {b : UInt8} {s : Bytes} : (strstr [b] s).isSome ↔ b ∈ s := by
  refine ⟨mem_of_strstr, fun h => ?_⟩
  induction s with
  | nil => exact absurd h List.not_mem_nil
  | cons c s ih =>
    by_cases hbc : b = c
    · simp [strstr, List.isPrefixOf, hbc]
    · rw [strstr_cons_of_ne hbc, Option.isSome_map]
      exact ih ((List.mem_cons.1 h).resolve_left hbc)

theorem found_at_zero {pat s : Bytes} {x : Nat} (hpre : pat <+: s)
    (hfirst : ∀ y < x, ¬ pat <+: s.drop y) : x = 0 := by
  by_contra hx
  exact hfirst 0 (Nat.pos_of_ne_zero hx) hpre

/-- The pattern stands at the place found, and at none in front of it. -/
theorem strstr_eq_some_iff {pat s : Bytes} {x : Nat} :
    strstr pat s = some x ↔ pat <+: s.drop x ∧ ∀ y < x, ¬ pat <+: s.drop y := by
  induction s generalizing x with
  | nil =>
    rw [strstr]
    cases pat with
    | nil =>
      constructor
      · rintro ⟨⟩
        exact ⟨List.nil_prefix, fun y hy => absurd hy (Nat.not_lt_zero y)⟩
      · rintro ⟨-, hfirst⟩
        rw [found_at_zero List.nil_prefix hfirst]
        rfl
    | cons b pat => simp
  | cons c s ih =>
    rw [strstr]
    by_cases hpre : pat <+: c :: s
    · rw [if_pos (List.isPrefixOf_iff_prefix.2 hpre)]
      constructor
      · rintro ⟨⟩
        exact ⟨hpre, fun y hy => absurd hy (Nat.not_lt_zero y)⟩
      · rintro ⟨-, hfirst⟩
        rw [found_at_zero hpre hfirst]
    · rw [if_neg (fun h => hpre (List.isPrefixOf_iff_prefix.1 h))]
      cases x with
      | zero => simp [hpre]
      | succ x =>
        rw [Option.map_eq_some_iff]
        constructor
        · rintro ⟨x, hx, ⟨⟩⟩
          obtain ⟨hat, hfirst⟩ := ih.1 hx
          refine ⟨hat, fun y hy => ?_⟩
          cases y with
          | zero => exact hpre
          | succ y => exact hfirst y (Nat.lt_of_succ_lt_succ hy)
        · rintro ⟨hat, hfirst⟩
          exact ⟨x, ih.2 ⟨hat, fun y hy => hfirst (y + 1) (Nat.succ_lt_succ hy)⟩, rfl⟩

/-- The pattern is found if it stands anywhere. -/
theorem strstr_isSome_iff {pat s : Bytes} : (strstr pat s).isSome ↔ pat <:+: s := by
  constructor
  · intro h
    obtain ⟨x, hx⟩ := Option.isSome_iff_exists.1 h
    exact (strstr_eq_some_iff.1 hx).1.isInfix.trans (List.drop_suffix x s).isInfix
  · intro h
    induction s with
    | nil =>
      rw [List.infix_nil.1 h]
      rfl
    | cons c s ih =>
      rw [strstr]
      by_cases hpre : pat <+: c :: s
      · rw [if_pos (List.isPrefixOf_iff_prefix.2 hpre)]
        rfl
      · rw [if_neg (fun hp => hpre (List.isPrefixOf_iff_prefix.1 hp)), Option.isSome_map]
        exact ih ((List.infix_cons_iff.1 h).resolve_left hpre)

theorem strstr_room {pat s : Bytes} {x : Nat} (hpat : pat ≠ []) (h : strstr pat s = some x) :
    x + pat.length ≤ s.length := by
  have hlen := (strstr_eq_some_iff.1 h).1.length_le
  have hpos := List.length_pos_iff.2 hpat
  rw [List.length_drop] at hlen
  omega

@[simp] theorem load_nat (buf : Bytes) (i : Nat) : load buf i = buf[i]? := by
  simp [load]

theorem load_of_drop {buf tl : Bytes} {i : Nat} {b : UInt8} (h : buf.drop i = b :: tl) :
    load buf i = some b := by
  rw [load_nat, ← List.head?_drop, h]
  rfl

theorem store_nat {buf : Bytes} {i : Nat} (b : UInt8) (h : i < buf.length) :
    store buf i b = some (buf.set i b) := by
  rw [store, if_pos ⟨by omega, by omega⟩]
  rfl

/-- A store at the end of a prefix extends the prefix. -/
theorem take_set_succ {α : Type*} {buf : List α} {i : Nat} (b : α) (h : i < buf.length) :
    (buf.set i b).take (i + 1) = buf.take i ++ [b] := by
  rw [List.take_add_one, List.take_set_of_le (Nat.le_refl i), List.getElem?_set_self h]
  rfl

/-- A store leaves what stands behind it. -/
theorem drop_set_of_lt {α : Type*} {buf : List α} {i k : Nat} (b : α) (h : i < k) :
    (buf.set i b).drop k = buf.drop k := by
  rw [List.drop_set, if_pos h]

/-! ### Buffers that hold a string -/

/-- `buf` holds the string `s`. -/
def Contains (buf s : Bytes) : Prop := 0 ∉ s ∧ ∃ rest, buf = s ++ 0 :: rest

theorem Contains.cstr_eq {buf s : Bytes} (h : Contains buf s) : cstr buf = s := by
  obtain ⟨hne, rest, rfl⟩ := h
  exact cstr_append_nul rest hne

theorem Contains.strlen_eq {buf s : Bytes} (h : Contains buf s) :
    strlen buf = some s.length := by
  obtain ⟨hne, rest, rfl⟩ := h
  exact strlen_append_nul rest hne

/-- The string behind a prefix of it. -/
theorem Contains.drop {buf a t : Bytes} (h : Contains buf (a ++ t)) :
    Contains (buf.drop a.length) t := by
  obtain ⟨hne, rest, rfl⟩ := h
  refine ⟨fun hmem => hne (List.mem_append_right a hmem), rest, ?_⟩
  rw [List.append_assoc, List.drop_left]

theorem contains_of_mem {buf : Bytes} (h : 0 ∈ buf) : Contains buf (cstr buf) := by
  induction buf with
  | nil => cases h
  | cons b buf ih =>
    by_cases hb : b = 0
    · subst hb
      exact ⟨List.not_mem_nil, buf, rfl⟩
    · have hmem : 0 ∈ buf := (List.mem_cons.1 h).resolve_left (Ne.symm hb)
      obtain ⟨hne, rest, hrest⟩ := ih hmem
      have hcstr : cstr (b :: buf) = b :: cstr buf := List.takeWhile_cons_of_pos (by simpa using hb)
      rw [hcstr]
      refine ⟨?_, rest, congrArg (b :: ·) hrest⟩
      rw [List.mem_cons, not_or]
      exact ⟨Ne.symm hb, hne⟩

/-- Bytes written where there is room for them do not change the length. -/
theorem length_overwrite {buf bs buf' : Bytes} {off : Nat} (h : overwrite buf off bs = some buf') :
    buf'.length = buf.length := by
  rw [overwrite] at h
  split at h
  · rw [← Option.some.inj h]
    simp only [List.length_append, List.length_take, List.length_drop]
    omega
  · cases h

theorem contains_zeros {n : Nat} (h : 0 < n) : Contains (List.replicate n 0) [] := by
  obtain ⟨n, rfl⟩ := Nat.exists_eq_add_one.2 h
  exact ⟨List.not_mem_nil, List.replicate n 0, rfl⟩

/-- Copying a string behind a prefix without NULs. -/
theorem contains_strcpy {buf a s : Bytes} (hbuf : buf.take a.length = a) (ha : 0 ∉ a)
    (hs : 0 ∉ s) (hroom : a.length + s.length + 1 ≤ buf.length) :
    ∃ buf', strcpy buf a.length s = some buf' ∧ Contains buf' (a ++ s) ∧
      buf'.length = buf.length := by
  have hwrite : strcpy buf a.length s =
      some (buf.take a.length ++ (s ++ [0]) ++ buf.drop (a.length + (s ++ [0]).length)) := by
    rw [strcpy, overwrite, if_pos]
    rw [List.length_append, List.length_singleton]
    omega
  refine ⟨_, hwrite, ⟨?_, buf.drop (a.length + (s ++ [0]).length), ?_⟩, length_overwrite hwrite⟩
  · rw [List.mem_append]
    exact not_or.2 ⟨ha, hs⟩
  · rw [hbuf]
    simp

/-- `strncpy` of a string with its length, into a buffer of NULs. -/
theorem contains_strncpy {s : Bytes} {n : Nat} (hs : 0 ∉ s) (hroom : s.length + 1 ≤ n) :
    ∃ buf, strncpy (List.replicate n 0) s s.length = some buf ∧ Contains buf s := by
  obtain ⟨m, rfl⟩ : ∃ m, n = s.length + (m + 1) := ⟨n - s.length - 1, by omega⟩
  refine ⟨s ++ List.replicate (m + 1) 0, ?_, hs, List.replicate m 0, rfl⟩
  rw [strncpy, overwrite, if_pos (by simp)]
  simp

/-- `strncpy` of a string over the first `n` bytes. -/
theorem strncpy_padded {buf s : Bytes} {n : Nat} (hs : s.length ≤ n)
    (hn : n ≤ buf.length) :
    strncpy buf s n = some (s ++ List.replicate (n - s.length) 0 ++ buf.drop n) := by
  have hlen : (s ++ List.replicate (n - s.length) (0 : UInt8)).length = n := by
    rw [List.length_append, List.length_replicate]
    omega
  rw [strncpy, List.take_of_length_le hs, overwrite, Nat.zero_add, hlen, if_pos hn,
    List.take_zero, List.nil_append]

/-- `strncpy` of a string that leaves room for a NUL. -/
theorem contains_strncpy_padded {buf s : Bytes} {n : Nat} (hs : 0 ∉ s) (hroom : s.length < n)
    (hn : n ≤ buf.length) : ∃ buf', strncpy buf s n = some buf' ∧ Contains buf' s ∧
      buf'.length = buf.length := by
  obtain ⟨m, hm⟩ : ∃ m, n - s.length = m + 1 := ⟨n - s.length - 1, by omega⟩
  refine ⟨_, strncpy_padded (Nat.le_of_lt hroom) hn, ⟨hs, List.replicate m 0 ++ buf.drop n, ?_⟩, ?_⟩
  · rw [hm, List.replicate_succ, List.append_assoc, List.cons_append]
  · simp only [List.length_append, List.length_replicate, List.length_drop]
    omega

/-- A NUL stored behind the string. -/
theorem Contains.store_nul {buf s : Bytes} (h : Contains buf s) {i : Nat} (hi : s.length ≤ i)
    (hlt : i < buf.length) :
    ∃ buf', store buf i 0 = some buf' ∧ Contains buf' s ∧ buf'.length = buf.length := by
  refine ⟨buf.set i 0, store_nat 0 hlt, ⟨h.1, ?_⟩, List.length_set⟩
  obtain ⟨-, rest, rfl⟩ := h
  rw [List.set_append_right _ _ hi]
  rcases Nat.eq_or_lt_of_le hi with heq | hlt'
  · exact ⟨rest, by rw [heq, Nat.sub_self]; rfl⟩
  · obtain ⟨k, hk⟩ : ∃ k, i - s.length = k + 1 := ⟨i - s.length - 1, by omega⟩
    exact ⟨rest.set k 0, by rw [hk]; rfl⟩

theorem Contains.strcat {buf s t : Bytes} (h : Contains buf s) (ht : 0 ∉ t)
    (hroom : s.length + t.length + 1 ≤ buf.length) :
    ∃ buf', strcat buf t = some buf' ∧ Contains buf' (s ++ t) ∧ buf'.length = buf.length := by
  have htake : buf.take s.length = s := by
    obtain ⟨-, rest, rfl⟩ := h
    exact List.take_left
  obtain ⟨buf', hcopy, hbuf'⟩ := contains_strcpy htake h.1 ht hroom
  refine ⟨buf', ?_, hbuf'⟩
  rw [CString.strcat, h.strlen_eq]
  exact hcopy

end CString
end CFunction
