import CFunction.ParseKv.Proofs.GluedLine

/-!
# Adding a key

An update of a key that the file does not have writes a line behind the end of the file, whether
or not a newline ends the last line there. The lookups of the other keys stay as they were.
-/

namespace CFunction
namespace ParseKv

open CString Trim BoundedLines

/-! ### What an update writes -/

/-- The loop of an update that meets no line of the key. -/
theorem copyLines_absent {key value : Bytes} : ∀ (fuel : Nat) (fp fp' : Stream)
    (filebuf filebuf' : Bytes) (flag flag' : Bool),
    (∀ line ∈ lineStrings fp.rest, kvIsKeyEqual line key = false) →
    (fp.eof = true → fp.rest = []) →
    copyLines key value fuel fp filebuf flag = some (fp', filebuf', flag') →
    flag' = flag ∧ fp'.content = fp.content ∧ fp'.rest = [] := by
  intro fuel
  induction fuel with
  | zero =>
    intro fp fp' filebuf filebuf' flag flag' _ hend hrun
    rw [copyLines] at hrun
    split at hrun
    · rename_i heof
      cases hrun
      exact ⟨rfl, rfl, hend heof⟩
    · cases hrun
  | succ fuel ih =>
    intro fp fp' filebuf filebuf' flag flag' hlines hend hrun
    rw [copyLines] at hrun
    cases heof : fp.eof with
    | true =>
      rw [if_pos heof] at hrun
      cases hrun
      exact ⟨rfl, rfl, hend heof⟩
    | false =>
      rw [if_neg (by rw [heof]; exact Bool.false_ne_true)] at hrun
      by_cases hrest : fp.rest = []
      · have hzeros : Contains (List.replicate KV_SIZE 0) [] := contains_zeros (by decide)
        rw [fgets_end hrest] at hrun
        simp only [Option.bind_eq_bind, Option.bind_some, hzeros.cstr_eq,
          not_kvIsKeyEqual_empty, if_neg Bool.false_ne_true] at hrun
        obtain ⟨filebuf₁, -, hloop⟩ := Option.bind_eq_some_iff.1 hrun
        obtain ⟨hflag, hcontent, hdone⟩ := ih _ fp' filebuf₁ filebuf' flag flag'
          (fun line hline => absurd hline List.not_mem_nil) (fun _ => rfl) hloop
        refine ⟨hflag, hcontent.trans ?_, hdone⟩
        rw [Stream.content, Stream.content, hrest]
      · obtain ⟨line, linebuf, fp₁, hfgets, hcut, hline, -, hcontent₁, hend₁⟩ :=
          fgets_readLine List.length_replicate hrest heof
        rw [lineStrings, hcut, List.map_cons] at hlines
        have hmatch := hlines (lineString line) List.mem_cons_self
        rw [hfgets] at hrun
        simp only [Option.bind_eq_bind, Option.bind_some, hline.cstr_eq, hmatch,
          if_neg Bool.false_ne_true] at hrun
        obtain ⟨filebuf₁, -, hloop⟩ := Option.bind_eq_some_iff.1 hrun
        obtain ⟨hflag, hcontent, hdone⟩ := ih fp₁ fp' filebuf₁ filebuf' flag flag'
          (fun l hl => hlines l (List.mem_cons_of_mem _ hl)) hend₁ hloop
        exact ⟨hflag, hcontent.trans hcontent₁, hdone⟩

/-- An update that adds a key writes its line behind the file. -/
theorem update_absent {content key value : Bytes} {granted : Bool} {disk' : Option Bytes}
    (habsent : lookup content key = none)
    (hstep : Step (some content) ⟨key, value, granted, 0⟩ disk') :
    disk' = some (content ++ kvLine key value) := by
  obtain ⟨-, hrun⟩ := hstep
  rw [fileUpdateValue] at hrun
  cases granted with
  | false => cases hrun
  | true =>
    obtain ⟨⟨fp, filebuf, flag⟩, hloop, hwrite⟩ := Option.bind_eq_some_iff.1 hrun
    obtain ⟨rfl, hcontent, hrest⟩ := copyLines_absent _ _ fp _ filebuf false flag
      (lookup_eq_none_iff.1 habsent) (fun h => absurd h Bool.false_ne_true) hloop
    have hbefore : fp.before = content := by
      rw [Stream.content, hrest, List.append_nil] at hcontent
      exact hcontent
    injection hwrite with hpair
    injection hpair with hdisk
    rw [← hdisk, Stream.content, Stream.write, hrest, hbefore, List.drop_nil, List.append_nil]

/-! ### Where the line goes -/

/-- The last line, if no newline ends it. -/
def unterminated (content : Bytes) : Bytes := content.rtakeWhile (· ≠ nl)

/-- The terminated lines. -/
def terminated (content : Bytes) : Bytes := content.rdropWhile (· ≠ nl)

theorem terminated_append (content : Bytes) :
    terminated content ++ unterminated content = content :=
  List.rdropWhile_append_rtakeWhile

theorem nl_notMem_unterminated (content : Bytes) : nl ∉ unterminated content := by
  intro h
  have hkeep : decide (nl ≠ nl) = true := @List.mem_rtakeWhile_imp _ (· ≠ nl) content nl h
  exact absurd hkeep (by decide)

theorem terminated_cases (content : Bytes) :
    terminated content = [] ∨ ∃ x, terminated content = x ++ [nl] := by
  by_cases hne : terminated content = []
  · exact .inl hne
  · have hlast := List.rdropWhile_last_not _ _ hne
    have hnl : (terminated content).getLast hne = nl := by simpa [terminated] using hlast
    exact .inr ⟨_, by rw [← hnl, List.dropLast_append_getLast]⟩

/-- Lines behind terminated lines. -/
theorem lookup_append (content t key : Bytes) : lookup (terminated content ++ t) key =
    (lookup (terminated content) key).or (lookup t key) := by
  have hlines : lineStrings (terminated content ++ t) =
      lineStrings (terminated content) ++ lineStrings t := by
    rcases terminated_cases content with hnil | ⟨x, hx⟩
    · rw [hnil]
      rfl
    · rw [hx, List.append_assoc, List.singleton_append, lineStrings, readLines,
        cut_append_stop, List.map_append]
      rfl
  rw [lookup, hlines, List.find?_append, lookup, lookup]
  cases (lineStrings (terminated content)).find? (kvIsKeyEqual · key) with
  | none => rfl
  | some line => rfl

theorem lookup_terminated (content key : Bytes) : lookup content key =
    (lookup (terminated content) key).or (lookup (unterminated content) key) := by
  rw [← lookup_append, terminated_append]

/-- The new line goes to the last one. -/
theorem lookup_added (content key value key' : Bytes) :
    lookup (content ++ kvLine key value) key' = (lookup (terminated content) key').or
      (lookup (glued (unterminated content) key value) key') := by
  rw [← lookup_append, glued, ← List.append_assoc, terminated_append]

/-- A text file with lines of at most 254 characters. -/
structure TextFile (content : Bytes) : Prop where
  no_nul : 0 ∉ content
  short : ∀ line, line <:+: content → nl ∉ line → line.length ≤ 254

theorem TextFile.unterminated_length {content : Bytes} (h : TextFile content) :
    (unterminated content).length ≤ 254 :=
  h.short _ (List.rtakeWhile_suffix _ _).isInfix (nl_notMem_unterminated content)

theorem TextFile.zero_notMem {content : Bytes} (h : TextFile content) : 0 ∉ unterminated content :=
  fun hmem => h.no_nul ((List.rtakeWhile_suffix _ _).subset hmem)

/-! ### The rest of the file -/

theorem lookup_eq_none_of_missing {content key value value' : Bytes}
    (h : fileGetValue (some content) key value = some (-3, value')) :
    lookup content key = none := by
  rw [fileGetValue_lookup] at h
  cases hlookup : lookup content key with
  | none => rfl
  | some res =>
    rw [hlookup] at h
    obtain ⟨copied, -, h⟩ := Option.bind_eq_some_iff.1 h
    obtain ⟨trimmed, -, h⟩ := Option.bind_eq_some_iff.1 h
    injection h with h
    injection h with hcode
    exact absurd hcode (by decide)

/-- The new pair is found, and every other key as before. -/
def LeavesRest (disk disk' : Option Bytes) (key value : Bytes) : Prop :=
  ∀ n, KV_SIZE ≤ n →
    (∃ buf, fileGetValue disk' key (List.replicate n 0) = some (0, buf) ∧ cstr buf = value) ∧
      ∀ key', ValidKey key' → key' ≠ key →
        fileGetValue disk' key' (List.replicate n 0) = fileGetValue disk key' (List.replicate n 0)

/-- An update that adds a key leaves the rest of the file exactly when the pair can be put behind
the last line. -/
theorem addKey_iff {content key value value₀ value₀' : Bytes} {granted : Bool}
    {disk' : Option Bytes} (hfile : TextFile content) (hvalid : Valid key value)
    (habsent : fileGetValue (some content) key value₀ = some (-3, value₀'))
    (hstep : Step (some content) ⟨key, value, granted, 0⟩ disk') :
    LeavesRest (some content) disk' key value ↔ Appendable (unterminated content) key value := by
  have hnl := nl_notMem_unterminated content
  have hnul := hfile.zero_notMem
  have hlast := hfile.unterminated_length
  have hnone := lookup_eq_none_of_missing habsent
  rw [update_absent hnone hstep]
  rw [lookup_terminated, Option.or_eq_none_iff] at hnone
  have hkey : lookup (content ++ kvLine key value) key =
      lookup (glued (unterminated content) key value) key := by
    rw [lookup_added, hnone.1, Option.none_or]
  constructor
  · intro hrest
    by_contra happend
    obtain ⟨res, hfound, hres⟩ :=
      (fileGetValue_zeros_iff (Nat.le_refl _)).1 (hrest KV_SIZE (Nat.le_refl _)).1
    have hshort :=
      length_lookup_lt hvalid hnl hnul hlast hnone.2 happend (hkey.symm.trans hfound)
    have htrim := delBlank_length_le res
    rw [hres] at htrim
    omega
  · intro happend n hn
    refine ⟨(fileGetValue_zeros_iff hn).2 ?_, fun key' hkey' hne => ?_⟩
    · obtain ⟨res, hfound, hres⟩ := happend.lookup_key hvalid hnl hnul hlast
      exact ⟨res, hkey.trans hfound, hres⟩
    · obtain ⟨hglued, hlone⟩ := happend.lookup_other hvalid hnl hnul hlast hkey' hne
      have hsame : lookup (content ++ kvLine key value) key' = lookup content key' := by
        rw [lookup_added, lookup_terminated content key', hglued, hlone]
      rw [fileGetValue_lookup, fileGetValue_lookup, hsame]

theorem addKey_iff_terminated :
    LeavesRest (some (text "a=1\n")) (some (text "a=1\nk=v\n")) (text "k") (text "v") ↔
      Appendable (unterminated (text "a=1\n")) (text "k") (text "v") := by
  have hfile : TextFile (text "a=1\n") := by
    refine ⟨by decide, fun line hline _ => Nat.le_trans hline.length_le (by decide)⟩
  have hlookup : lookup (text "a=1\n") (text "k") = none := by decide
  have hstep : Step (some (text "a=1\n")) ⟨text "k", text "v", true, 0⟩
      (some (text "a=1\nk=v\n")) :=
    ⟨fun _ => by decide, by set_option maxRecDepth 4096 in decide⟩
  exact addKey_iff hfile (by decide) (fileGetValue_none hlookup []) hstep

/-- Behind a last line without a newline the pair becomes a part of that line's value. -/
theorem addKey_unterminated :
    fileGetValue (some (text "a=1")) (text "k") [] = some (-3, []) ∧
      Step (some (text "a=1")) ⟨text "k", text "v", true, 0⟩ (some (text "a=1k=v\n")) ∧
      ¬ LeavesRest (some (text "a=1")) (some (text "a=1k=v\n")) (text "k") (text "v") := by
  have hlookup : lookup (text "a=1") (text "k") = none := by decide
  have hlookup' : lookup (text "a=1k=v\n") (text "k") = none := by decide
  refine ⟨fileGetValue_none hlookup [],
    ⟨fun _ => by decide, by set_option maxRecDepth 4096 in decide⟩, ?_⟩
  intro h
  obtain ⟨⟨buf, hrun, -⟩, -⟩ := h KV_SIZE (Nat.le_refl _)
  rw [fileGetValue_none hlookup'] at hrun
  injection hrun with hrun
  injection hrun with hcode
  exact absurd hcode (by decide)

end ParseKv
end CFunction
