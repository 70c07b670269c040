import CFunction.Json.Minify
import CFunction.Misc.InPlace

/-!
# Minifying in place

The bytes are written behind the ones that are read, so that the buffer ends up with what the
text means without its blanks and comments, and nothing behind its NUL is touched.
-/

namespace CFunction
namespace Json

open CString

variable {buffer s t rest done unread : Bytes} {fuel input : Nat} {m : Minifier}

/-! ### Comments -/

theorem onelineLoop_eq (hdrop : buffer.drop input = s ++ 0 :: rest) (hs : 0 ∉ s)
    (hfuel : s.length < fuel) :
    ∃ input', onelineLoop buffer fuel input = some input' ∧ input ≤ input' ∧
      buffer.drop input' = afterLine s ++ 0 :: rest := by
  induction s generalizing input fuel with
  | nil =>
    obtain ⟨fuel, rfl⟩ := Nat.exists_eq_succ_of_ne_zero (Nat.ne_of_gt hfuel)
    refine ⟨input, ?_, Nat.le_refl _, hdrop⟩
    rw [onelineLoop, load_of_drop hdrop]
    rfl
  | cons c s ih =>
    obtain ⟨fuel, rfl⟩ := Nat.exists_eq_succ_of_ne_zero (Nat.ne_of_gt (Nat.zero_lt_of_lt hfuel))
    have hc : c ≠ 0 := (List.ne_of_not_mem_cons hs).symm
    have hnext : buffer.drop (input + 1) = s ++ 0 :: rest := by
      rw [← List.drop_drop, hdrop]
      rfl
    rw [onelineLoop, load_of_drop hdrop, Option.bind_eq_bind, Option.bind_some, if_neg hc,
      afterLine]
    split
    · exact ⟨input + 1, rfl, Nat.le_succ _, hnext⟩
    · obtain ⟨input', hloop, hle, hunread⟩ := ih hnext (List.not_mem_of_not_mem_cons hs)
        (Nat.lt_of_succ_lt_succ hfuel)
      exact ⟨input', hloop, Nat.le_of_succ_le hle, hunread⟩

theorem multilineLoop_eq (hdrop : buffer.drop input = s ++ 0 :: rest) (hs : 0 ∉ s)
    (hfuel : s.length < fuel) :
    ∃ input', multilineLoop buffer fuel input = some input' ∧ input ≤ input' ∧
      buffer.drop input' = afterComment s ++ 0 :: rest := by
  induction s generalizing input fuel with
  | nil =>
    obtain ⟨fuel, rfl⟩ := Nat.exists_eq_succ_of_ne_zero (Nat.ne_of_gt hfuel)
    refine ⟨input, ?_, Nat.le_refl _, hdrop⟩
    rw [multilineLoop, load_of_drop hdrop]
    rfl
  | cons c s ih =>
    obtain ⟨fuel, rfl⟩ := Nat.exists_eq_succ_of_ne_zero (Nat.ne_of_gt (Nat.zero_lt_of_lt hfuel))
    have hc : c ≠ 0 := (List.ne_of_not_mem_cons hs).symm
    have hnext : buffer.drop (input + 1) = s ++ 0 :: rest := by
      rw [← List.drop_drop, hdrop]
      rfl
    obtain ⟨input', hloop, hle, hunread⟩ := ih hnext (List.not_mem_of_not_mem_cons hs)
      (Nat.lt_of_succ_lt_succ hfuel)
    rw [multilineLoop, load_of_drop hdrop, Option.bind_eq_bind, Option.bind_some, if_neg hc]
    cases s with
    | nil =>
      -- a star at the very end has the NUL behind it
      refine ⟨input', ?_, Nat.le_of_succ_le hle, hunread⟩
      have hnul : (0 : UInt8) ≠ ascii '/' := by decide
      rw [load_of_drop hnext, Option.bind_some, if_neg hnul, hloop, ite_self]
    | cons d s =>
      rw [load_of_drop hnext, Option.bind_some, afterComment]
      by_cases hstar : c = ascii '*'
      · rw [if_pos hstar]
        by_cases hslash : d = ascii '/'
        · rw [if_pos hslash, if_pos ⟨hstar, hslash⟩]
          refine ⟨input + 2, rfl, Nat.le_add_right _ 2, ?_⟩
          rw [← List.drop_drop, hdrop]
          rfl
        · rw [if_neg hslash, if_neg fun h => hslash h.2]
          exact ⟨input', hloop, Nat.le_of_succ_le hle, hunread⟩
      · rw [if_neg hstar, if_neg fun h => hstar h.1]
        exact ⟨input', hloop, Nat.le_of_succ_le hle, hunread⟩

/-! ### Strings -/

/-- How far the minifier is in a buffer of `n` bytes. -/
structure Working (n : Nat) (m : Minifier) (done unread : Bytes) : Prop where
  length : m.buffer.length = n
  inPlace : InPlace m.buffer m.json m.into done unread

variable {n : Nat} {c d : UInt8}

theorem Working.load (h : Working n m done (c :: unread)) : load m.buffer m.json = some c :=
  load_of_drop h.inPlace.unread

theorem Working.store (h : Working n m done (c :: unread)) (b : UInt8) :
    store m.buffer m.into b = some (m.buffer.set m.into b) :=
  store_nat b h.inPlace.output_lt

/-- The minifier behind the byte `c`, which is kept. -/
def Minifier.copied (m : Minifier) (c : UInt8) : Minifier where
  buffer := m.buffer.set m.into c
  json := m.json + 1
  into := m.into + 1

theorem Working.copied (h : Working n m done (c :: unread)) :
    Working n (m.copied c) (done ++ [c]) unread :=
  ⟨List.length_set.trans h.length, h.inPlace.put⟩

theorem copyByte_eq (h : Working n m done (c :: unread)) : copyByte m = some (m.copied c) := by
  rw [copyByte, h.load, Option.bind_eq_bind, Option.bind_some, h.store]
  rfl

/-- One byte of a string, or two when it is an escaped quote. -/
theorem stringLoop_succ (h : Working n m done (c :: d :: unread)) (hc : c ≠ 0) (fuel : Nat) :
    stringLoop (fuel + 1) m =
      if c = ascii '"' then some (m.copied c)
      else if c = ascii '\\' ∧ d = ascii '"' then stringLoop fuel ((m.copied c).copied d)
      else stringLoop fuel (m.copied c) := by
  have hagain : load (m.buffer.set m.into c) m.json = some c := load_of_drop h.inPlace.unread_set
  have hnext : load (m.buffer.set m.into c) (m.json + 1 : Nat) = some d := h.copied.load
  have hstore : store (m.buffer.set m.into c) (m.into + 1 : Nat) d =
      some ((m.buffer.set m.into c).set (m.into + 1) d) := h.copied.store d
  have hquote : store (m.buffer.set m.into c) m.into (ascii '"') =
      some (m.buffer.set m.into (ascii '"')) := by
    rw [store_nat _ (List.length_set.symm ▸ h.inPlace.output_lt), List.set_set]
  rw [stringLoop, h.load]
  simp only [Option.bind_eq_bind, Option.bind_some, if_neg hc, h.store, hagain, hnext, hstore,
    hquote]
  by_cases hend : c = ascii '"'
  · rw [if_pos hend, if_pos hend, hend]
    rfl
  · rw [if_neg hend, if_neg hend]
    by_cases hback : c = ascii '\\'
    · rw [if_pos hback]
      by_cases hd : d = ascii '"'
      · rw [if_pos hd, if_pos ⟨hback, hd⟩]
        rfl
      · rw [if_neg hd, if_neg fun h => hd h.2]
        rfl
    · rw [if_neg hback, if_neg fun h => hback h.1]
      rfl

theorem stringLoop_nul (h : Working n m done (0 :: unread)) (fuel : Nat) :
    stringLoop (fuel + 1) m = some m := by
  rw [stringLoop, h.load]
  rfl

theorem exists_fuel {k : Nat} (h : k < fuel) : ∃ fuel', fuel = fuel' + 1 :=
  Nat.exists_eq_succ_of_ne_zero (Nat.ne_of_gt (Nat.zero_lt_of_lt h))

theorem stringLoop_eq (h : Working n m done (s ++ 0 :: rest)) (hs : 0 ∉ s)
    (hfuel : s.length < fuel) :
    ∃ m', stringLoop fuel m = some m' ∧
      Working n m' (done ++ (splitString s).1) ((splitString s).2 ++ 0 :: rest) := by
  obtain ⟨fuel, rfl⟩ := exists_fuel hfuel
  fun_induction splitString s generalizing m done fuel with
  | case1 => exact ⟨m, stringLoop_nul h fuel, (List.append_nil done).symm ▸ h⟩
  | case2 c =>
    have hnul : (0 : UInt8) ≠ ascii '"' := by decide
    obtain ⟨fuel, rfl⟩ := exists_fuel (Nat.lt_of_succ_lt_succ hfuel)
    have hescape : ¬(c = ascii '\\' ∧ (0 : UInt8) = ascii '"') := fun he => hnul he.2
    rw [stringLoop_succ h (List.ne_of_not_mem_cons hs).symm, if_neg hescape,
      stringLoop_nul h.copied, ite_self]
    exact ⟨_, rfl, h.copied⟩
  | case3 d s =>
    rw [stringLoop_succ h (List.ne_of_not_mem_cons hs).symm, if_pos rfl]
    exact ⟨_, rfl, h.copied⟩
  | case4 c d s hc hescape ih =>
    have hs' := List.not_mem_of_not_mem_cons (List.not_mem_of_not_mem_cons hs)
    rw [stringLoop_succ h (List.ne_of_not_mem_cons hs).symm, if_neg hc, if_pos hescape]
    obtain ⟨fuel, rfl⟩ := exists_fuel (Nat.lt_of_succ_lt_succ hfuel)
    have hrun := ih h.copied.copied hs' fuel (by grind)
    rw [List.append_assoc, List.append_assoc] at hrun
    exact hrun
  | case5 c d s hc hplain ih =>
    rw [stringLoop_succ h (List.ne_of_not_mem_cons hs).symm, if_neg hc, if_neg hplain]
    obtain ⟨fuel, rfl⟩ := exists_fuel (Nat.lt_of_succ_lt_succ hfuel)
    have hrun := ih h.copied (List.not_mem_of_not_mem_cons hs) fuel (Nat.lt_of_succ_lt_succ hfuel)
    rw [List.append_assoc] at hrun
    exact hrun

/-! ### The whole text -/

theorem Working.next (h : Working n m done (c :: unread)) :
    Working n { m with json := m.json + 1 } done unread :=
  ⟨h.length, h.inPlace.skip⟩

theorem Working.to (h : Working n m done unread) {json : Nat} (hle : m.json ≤ json)
    (hdrop : m.buffer.drop json = t) : Working n { m with json } done t :=
  ⟨h.length, h.inPlace.skipTo hle hdrop⟩

theorem isBlank_iff : isBlank c = true ↔
    c = ascii ' ' ∨ c = ascii '\t' ∨ c = ascii '\r' ∨ c = ascii '\n' := by
  rw [isBlank]
  simp only [Bool.or_eq_true, decide_eq_true_iff, or_assoc]

theorem notMem_of_append {a b : Bytes} (h : a ++ b = s) (hs : 0 ∉ s) : 0 ∉ b := by
  intro hb
  exact hs (h ▸ List.mem_append_right a hb)

theorem suffix_afterLine (s : Bytes) : afterLine s <:+ s := by
  fun_induction afterLine s with
  | case1 => exact List.suffix_refl _
  | case2 => exact List.suffix_cons _ _
  | case3 c s _ ih => exact ih.trans (List.suffix_cons c s)

theorem suffix_afterComment (s : Bytes) : afterComment s <:+ s := by
  fun_induction afterComment s with
  | case1 => exact List.suffix_refl _
  | case2 => exact List.nil_suffix
  | case3 c d s => exact (List.suffix_cons d s).trans (List.suffix_cons c _)
  | case4 c d s _ ih => exact ih.trans (List.suffix_cons c _)

/-- Nothing is left but bytes of the text, in their order. -/
theorem minified_sublist (s : Bytes) : (minified s).Sublist s := by
  fun_induction minified s with
  | case1 => exact List.Sublist.refl _
  | case2 c s _ ih => exact ih.cons c
  | case3 s _ _ ih =>
    exact (ih.trans ((suffix_afterLine _).sublist.trans (List.tail_sublist s))).cons _
  | case4 s _ _ _ ih =>
    exact (ih.trans ((suffix_afterComment _).sublist.trans (List.tail_sublist s))).cons _
  | case5 s _ _ _ ih => exact ih.cons _
  | case6 s _ _ ih =>
    have hsplit := (List.Sublist.refl (splitString s).1).append ih
    rw [splitString_append] at hsplit
    exact hsplit.cons_cons _
  | case7 c s _ _ _ ih => exact ih.cons_cons c

/-- What the loop looks at first. -/
theorem minifyLoop_succ (h : Working n m done (c :: unread)) (hc : c ≠ 0) (fuel : Nat) :
    minifyLoop (fuel + 1) m =
      if isBlank c then minifyLoop fuel { m with json := m.json + 1 }
      else if c = ascii '/' then do
        let d ← load m.buffer (m.json + 1 : Nat)
        if d = ascii '/' then do
          let json ← skipOnelineComment m.buffer fuel m.json
          minifyLoop fuel { m with json }
        else if d = ascii '*' then do
          let json ← skipMultilineComment m.buffer fuel m.json
          minifyLoop fuel { m with json }
        else minifyLoop fuel { m with json := m.json + 1 }
      else if c = ascii '"' then do
        let m ← stringLoop fuel (m.copied c)
        minifyLoop fuel m
      else minifyLoop fuel (m.copied c) := by
  rw [minifyLoop, h.load]
  simp only [Option.bind_eq_bind, Option.bind_some, if_neg hc, minifyString, copyByte_eq h,
    ← isBlank_iff]

theorem minifyLoop_eq (h : Working n m done (s ++ 0 :: rest)) (hs : 0 ∉ s)
    (hfuel : s.length < fuel) :
    ∃ m', minifyLoop fuel m = some m' ∧ Working n m' (done ++ minified s) (0 :: rest) := by
  obtain ⟨fuel, rfl⟩ := exists_fuel hfuel
  fun_induction minified s generalizing m done fuel with
  | case1 =>
    refine ⟨m, ?_, (List.append_nil done).symm ▸ h⟩
    rw [minifyLoop, h.load]
    rfl
  | case2 c s hblank ih =>
    obtain ⟨fuel, rfl⟩ := exists_fuel (Nat.lt_of_succ_lt_succ hfuel)
    rw [minifyLoop_succ h (List.ne_of_not_mem_cons hs).symm, if_pos hblank]
    exact ih h.next (List.not_mem_of_not_mem_cons hs) fuel (Nat.lt_of_succ_lt_succ hfuel)
  | case3 s hhead hblank ih =>
    obtain ⟨s, rfl⟩ := List.head?_eq_some_iff.1 hhead
    obtain ⟨fuel, rfl⟩ := exists_fuel (Nat.lt_of_succ_lt_succ hfuel)
    have hs' := List.not_mem_of_not_mem_cons (List.not_mem_of_not_mem_cons hs)
    have hlen := Nat.lt_of_succ_lt_succ hfuel
    rw [List.length_cons] at hlen
    obtain ⟨json, hloop, hle, hdrop⟩ := onelineLoop_eq h.next.next.inPlace.unread hs'
      (Nat.lt_of_succ_lt hlen)
    rw [minifyLoop_succ h (List.ne_of_not_mem_cons hs).symm, if_neg hblank, if_pos rfl,
      show load m.buffer (m.json + 1 : Nat) = some (ascii '/') from h.next.load,
      Option.bind_eq_bind, Option.bind_some, if_pos rfl, skipOnelineComment, hloop]
    have hrest := suffix_afterLine s
    exact ih (h.to (Nat.le_of_succ_le (Nat.le_of_succ_le hle)) hdrop)
      (fun h0 => hs' (hrest.subset h0))
      fuel (Nat.lt_of_le_of_lt hrest.length_le (Nat.lt_of_succ_lt hlen))
  | case4 s hne hhead hblank ih =>
    obtain ⟨s, rfl⟩ := List.head?_eq_some_iff.1 hhead
    obtain ⟨fuel, rfl⟩ := exists_fuel (Nat.lt_of_succ_lt_succ hfuel)
    have hs' := List.not_mem_of_not_mem_cons (List.not_mem_of_not_mem_cons hs)
    have hlen := Nat.lt_of_succ_lt_succ hfuel
    rw [List.length_cons] at hlen
    obtain ⟨json, hloop, hle, hdrop⟩ := multilineLoop_eq h.next.next.inPlace.unread hs'
      (Nat.lt_of_succ_lt hlen)
    rw [minifyLoop_succ h (List.ne_of_not_mem_cons hs).symm, if_neg hblank, if_pos rfl,
      show load m.buffer (m.json + 1 : Nat) = some (ascii '*') from h.next.load,
      Option.bind_eq_bind, Option.bind_some, if_neg (by decide), if_pos rfl, skipMultilineComment,
      hloop]
    have hrest := suffix_afterComment s
    exact ih (h.to (Nat.le_of_succ_le (Nat.le_of_succ_le hle)) hdrop)
      (fun h0 => hs' (hrest.subset h0))
      fuel (Nat.lt_of_le_of_lt hrest.length_le (Nat.lt_of_succ_lt hlen))
  | case5 s hline hcomment hblank ih =>
    obtain ⟨fuel, rfl⟩ := exists_fuel (Nat.lt_of_succ_lt_succ hfuel)
    have hrun := ih h.next (List.not_mem_of_not_mem_cons hs) fuel (Nat.lt_of_succ_lt_succ hfuel)
    rw [minifyLoop_succ h (List.ne_of_not_mem_cons hs).symm, if_neg hblank, if_pos rfl]
    have hd : ∃ d unread, s ++ 0 :: rest = d :: unread ∧ d ≠ ascii '/' ∧ d ≠ ascii '*' := by
      cases s with
      | nil => exact ⟨0, rest, rfl, by decide, by decide⟩
      | cons d s => exact ⟨d, s ++ 0 :: rest, rfl, fun he => hline (congrArg some he),
          fun he => hcomment (congrArg some he)⟩
    obtain ⟨d, unread, he, hslash, hstar⟩ := hd
    have hload : load m.buffer (m.json + 1 : Nat) =
      some d := load_of_drop (h.next.inPlace.unread.trans he)
    rw [hload, Option.bind_eq_bind, Option.bind_some, if_neg hslash, if_neg hstar]
    exact hrun
  | case6 s hblank hslash ih =>
    obtain ⟨fuel, rfl⟩ := exists_fuel (Nat.lt_of_succ_lt_succ hfuel)
    rw [minifyLoop_succ h (List.ne_of_not_mem_cons hs).symm, if_neg hblank, if_neg hslash,
      if_pos rfl]
    obtain ⟨m', hloop, h'⟩ := stringLoop_eq h.copied (List.not_mem_of_not_mem_cons hs)
      (Nat.lt_of_succ_lt_succ hfuel)
    have hs' := notMem_of_append (splitString_append s) (List.not_mem_of_not_mem_cons hs)
    have hrun := ih h' hs' fuel (Nat.lt_of_le_of_lt (length_splitString_le s)
      (Nat.lt_of_succ_lt_succ hfuel))
    rw [List.append_assoc, List.append_assoc] at hrun
    rw [hloop]
    exact hrun
  | case7 c s hblank hslash hquote ih =>
    obtain ⟨fuel, rfl⟩ := exists_fuel (Nat.lt_of_succ_lt_succ hfuel)
    have hrun := ih h.copied (List.not_mem_of_not_mem_cons hs) fuel (Nat.lt_of_succ_lt_succ hfuel)
    rw [List.append_assoc] at hrun
    rw [minifyLoop_succ h (List.ne_of_not_mem_cons hs).symm, if_neg hblank, if_neg hslash,
      if_neg hquote]
    exact hrun

/-! ### Once is enough -/

theorem splitString_cons_ne_nil (c : UInt8) (s : Bytes) :
    ∃ a, (splitString (c :: s)).1 = c :: a := by
  cases s with
  | nil => exact ⟨[], rfl⟩
  | cons d s =>
    rw [splitString]
    split
    · exact ⟨[], rfl⟩
    · split
      · exact ⟨_, rfl⟩
      · exact ⟨_, rfl⟩

/-- A string ends where it did, whatever is put behind it. Only one that was not closed has nothing
behind it. -/
theorem splitString_again (s : Bytes) (ht : (splitString s).2 = [] → t = []) :
    splitString ((splitString s).1 ++ t) = ((splitString s).1, t) := by
  fun_induction splitString s with
  | case1 =>
    rw [ht rfl]
    rfl
  | case2 c =>
    rw [ht rfl]
    rfl
  | case3 d s =>
    cases t with
    | nil => rfl
    | cons e t =>
      rw [List.singleton_append, splitString, if_pos rfl]
  | case4 c d s hc hescape ih =>
    rw [List.cons_append, List.cons_append, splitString, if_neg hc, if_pos hescape, ih ht]
  | case5 c d s hc hplain ih =>
    obtain ⟨a, ha⟩ := splitString_cons_ne_nil d s
    have hagain := ih ht
    rw [ha] at hagain
    rw [List.cons_append, ha, List.cons_append, splitString, if_neg hc, if_neg hplain,
      ← List.cons_append, hagain]

theorem minified_minified (s : Bytes) : minified (minified s) = minified s := by
  fun_induction minified s with
  | case1 =>
    rw [minified]
  | case2 c s _ ih => exact ih
  | case3 s _ _ ih => exact ih
  | case4 s _ _ _ ih => exact ih
  | case5 s _ _ _ ih => exact ih
  | case6 s hblank hslash ih =>
    have hnil : (splitString s).2 = [] → minified (splitString s).2 = [] := fun h => by
      rw [h, minified]
    rw [List.cons_append, minified, if_neg hblank, if_neg hslash, if_pos rfl,
      splitString_again s hnil, ih]
    rfl
  | case7 c s hblank hslash hquote ih =>
    rw [minified, if_neg hblank, if_neg hslash, if_neg hquote, ih]

theorem minify_eq (rest : Bytes) (hs : 0 ∉ s) :
    ∃ buffer, minify (s ++ 0 :: rest) = some buffer ∧ Contains buffer (minified s) ∧
      buffer.length = (s ++ 0 :: rest).length ∧ buffer.drop (s.length + 1) = rest := by
  have hstart : Working (s ++ 0 :: rest).length ⟨s ++ 0 :: rest, 0, 0⟩ [] (s ++ 0 :: rest) :=
    ⟨rfl, InPlace.start _⟩
  have hlen : (s ++ 0 :: rest).length = s.length + 1 + rest.length := by
    rw [List.length_append, List.length_cons]
    omega
  have hfuel : s.length < (s ++ 0 :: rest).length + 1 := by omega
  obtain ⟨m, hloop, h⟩ := minifyLoop_eq hstart hs hfuel
  refine ⟨m.buffer.set m.into 0, ?_, ?_, List.length_set.trans h.length, ?_⟩
  · rw [minify, hloop]
    exact h.store 0
  · exact ⟨fun h0 => hs ((minified_sublist s).subset h0), _, h.inPlace.finish 0⟩
  · -- the NUL is where it was, and is all that is still to be read
    have hjson : m.json = s.length := by
      have hunread := congrArg List.length h.inPlace.unread
      rw [List.length_drop, h.length, hlen, List.length_cons] at hunread
      omega
    rw [drop_set_of_lt _ (hjson ▸ Nat.lt_succ_of_le h.inPlace.behind), ← hjson, ← List.drop_drop,
      h.inPlace.unread]
    rfl

/-- In the buffer of every string the code stays inside the string, leaves the string without its
blanks, comments and single slashes there, and would change nothing if it were called again. -/
theorem minify_in_place (rest : Bytes) (hs : 0 ∉ s) :
    ∃ buffer, minify (s ++ 0 :: rest) = some buffer ∧ Contains buffer (minified s) ∧
      buffer.length = (s ++ 0 :: rest).length ∧ buffer.drop (s.length + 1) = rest ∧
      ∃ again, minify buffer = some again ∧ Contains again (minified s) := by
  obtain ⟨buffer, hminify, hcontains, hlen, hbehind⟩ := minify_eq rest hs
  refine ⟨buffer, hminify, hcontains, hlen, hbehind, ?_⟩
  obtain ⟨hnul, rest', rfl⟩ := hcontains
  obtain ⟨again, hagain, hcontains', -⟩ := minify_eq rest' hnul
  rw [minified_minified] at hcontains'
  exact ⟨again, hagain, hcontains'⟩

/-- A lone slash, a blank, a quoted part that keeps its blank, and a comment behind it. -/
theorem minify_in_place_comment :
    ∃ buffer, minify (text "[1/2, \"a /*\"]/* */" ++ 0 :: [7]) = some buffer ∧
      Contains buffer (text "[12,\"a /*\"]") ∧ buffer.drop 19 = [7] := by
  have hminified : minified (text "[1/2, \"a /*\"]/* */") = text "[12,\"a /*\"]" := by
    show minified [91, 49, 47, 50, 44, 32, 34, 97, 32, 47, 42, 34, 93, 47, 42, 32, 42, 47] =
      [91, 49, 50, 44, 34, 97, 32, 47, 42, 34, 93]
    simp +decide [minified, splitString, afterComment]
  obtain ⟨buffer, hminify, hcontains, -, hbehind, -⟩ :=
    minify_in_place (s := text "[1/2, \"a /*\"]/* */") [7] (by decide)
  rw [hminified] at hcontains
  exact ⟨buffer, hminify, hcontains, hbehind⟩

end Json
end CFunction
