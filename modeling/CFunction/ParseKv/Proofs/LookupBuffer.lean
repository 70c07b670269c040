import CFunction.ParseKv.Proofs.FileLines

/-!
# The buffer of a lookup

`file_get_value` copies the value without a NUL behind it and trims what the buffer then holds.
The string is the value only if what the buffer held behind it is blank, and trimmed away too.
-/

namespace CFunction
namespace ParseKv

open CString Trim

/-- A buffer that had, behind the place of `res`, a NUL and in front of it nothing but white space
that is trimmed together with `res`. -/
def HoldsBlank (res value : Bytes) : Prop :=
  0 ∈ value.drop res.length ∧
    if res = [] then cstr value = []
    else (∃ c ∈ res, isspace c = false) ∧ ∀ c ∈ cstr (value.drop res.length), isspace c

theorem delBlank_eq_nil_iff {s : Bytes} : delBlank s = [] ↔ s = [] := by
  constructor
  · intro h
    by_contra hne
    rw [delBlank] at h
    split at h
    · exact hne ((List.take_eq_nil_iff.1 h).resolve_left (Nat.succ_ne_zero 0))
    · rename_i hword
      exact hword (List.all_eq_true.2 (trim_eq_nil_iff.1 h))
  · rintro rfl
    rfl

/-- When what stands behind the value makes no difference. -/
theorem delBlank_append_iff (res t : Bytes) : delBlank (res ++ t) = trim isspace res ↔
    if res = [] then t = [] else (∃ c ∈ res, isspace c = false) ∧ ∀ c ∈ t, isspace c := by
  by_cases hnil : res = []
  · subst hnil
    rw [if_pos rfl]
    exact delBlank_eq_nil_iff
  · rw [if_neg hnil]
    have hne : res ++ t ≠ [] := fun h => hnil (List.append_eq_nil_iff.1 h).1
    by_cases hword : ∃ c ∈ res, isspace c = false
    · obtain ⟨c, hc, hspace⟩ := hword
      have htrim : delBlank (res ++ t) = trim isspace (res ++ t) :=
        delBlank_eq_trim_iff.2 (.inr ⟨c, List.mem_append_left t hc, hspace⟩)
      rw [htrim]
      constructor
      · intro h
        exact ⟨⟨c, hc, hspace⟩, by_contra fun ht => trim_append_ne ht h⟩
      · exact fun h => trim_append_of_all h.2
    · have hblank : trim isspace res = [] := by
        refine trim_eq_nil_iff.2 fun c hc => ?_
        exact Bool.not_eq_false _ |>.mp fun hspace => hword ⟨c, hc, hspace⟩
      rw [hblank, delBlank_eq_nil_iff]
      exact ⟨fun h => absurd h hne, fun h => absurd h.1 hword⟩

/-- The copy and the trim, over any buffer with room. -/
theorem copyTrimmed_iff {res value : Bytes} (hres : 0 ∉ res) (hroom : res.length < value.length)
    (hint : value.length ≤ INT_MAX) :
    (∃ buf, copyTrimmed res value = some (0, buf) ∧ cstr buf = trim isspace res) ↔
      HoldsBlank res value := by
  have hcopy : strncpy value res res.length = some (res ++ value.drop res.length) := by
    rw [strncpy_padded (Nat.le_refl _) (Nat.le_of_lt hroom), Nat.sub_self, List.replicate_zero,
      List.append_nil]
  rw [copyTrimmed, hcopy, HoldsBlank]
  simp only [Option.bind_eq_bind, Option.bind_some]
  by_cases hnul : 0 ∈ value.drop res.length
  · obtain ⟨hne, rest, hrest⟩ := contains_of_mem hnul
    have hbuf : Contains (res ++ value.drop res.length)
        (res ++ cstr (value.drop res.length)) := by
      refine ⟨?_, rest, ?_⟩
      · rw [List.mem_append]
        exact not_or.2 ⟨hres, hne⟩
      · conv_lhs => rw [hrest]
        rw [List.append_assoc]
    have hlen : (res ++ cstr (value.drop res.length)).length ≤ INT_MAX := by
      have hstring := (List.takeWhile_prefix (l := value.drop res.length) (· ≠ 0)).length_le
      rw [List.length_drop] at hstring
      rw [List.length_append, cstr]
      omega
    obtain ⟨buf, htrim, hstring⟩ := contains_kvDelBlank hbuf hlen
    have hwhole : (if res = [] then cstr value = []
        else (∃ c ∈ res, isspace c = false) ∧ ∀ c ∈ cstr (value.drop res.length), isspace c) ↔
        delBlank (res ++ cstr (value.drop res.length)) = trim isspace res := by
      rw [delBlank_append_iff]
      by_cases hnil : res = []
      · subst hnil
        rfl
      · rw [if_neg hnil, if_neg hnil]
    rw [htrim, hwhole, ← hstring.cstr_eq]
    simp [hnul]
  · have hlen : kvDelBlank (res ++ value.drop res.length) = none := by
      have hmem : 0 ∉ res ++ value.drop res.length := by
        rw [List.mem_append]
        exact not_or.2 ⟨hres, hnul⟩
      rw [kvDelBlank, strlen, if_neg hmem]
      rfl
    rw [hlen]
    simp [hnul]

/-- Two lookups of a key, into buffers with any contents and a length that is an `int`, both leave
the trimmed text exactly when both buffers held nothing but white space behind the place of the
text. -/
theorem lookup_independent_iff {content key res value₁ value₂ : Bytes}
    (hpresent : lookup content key = some res) (hroom₁ : res.length < value₁.length)
    (hroom₂ : res.length < value₂.length) (hint₁ : value₁.length ≤ INT_MAX)
    (hint₂ : value₂.length ≤ INT_MAX) :
    (∃ buf₁ buf₂, fileGetValue (some content) key value₁ = some (0, buf₁) ∧
      fileGetValue (some content) key value₂ = some (0, buf₂) ∧
      cstr buf₁ = trim isspace res ∧ cstr buf₂ = trim isspace res) ↔
      HoldsBlank res value₁ ∧ HoldsBlank res value₂ := by
  have hres := zero_notMem_lookup hpresent
  rw [fileGetValue_lookup, fileGetValue_lookup, hpresent, ← copyTrimmed_iff hres hroom₁ hint₁,
    ← copyTrimmed_iff hres hroom₂ hint₂]
  constructor
  · rintro ⟨buf₁, buf₂, hrun₁, hrun₂, hstring₁, hstring₂⟩
    exact ⟨⟨buf₁, hrun₁, hstring₁⟩, ⟨buf₂, hrun₂, hstring₂⟩⟩
  · rintro ⟨⟨buf₁, hrun₁, hstring₁⟩, ⟨buf₂, hrun₂, hstring₂⟩⟩
    exact ⟨buf₁, buf₂, hrun₁, hrun₂, hstring₁, hstring₂⟩

theorem lookup_independent_iff_one :
    (∃ buf₁ buf₂,
      fileGetValue (some (text "k=a\n")) (text "k") (List.replicate 8 0) = some (0, buf₁) ∧
      fileGetValue (some (text "k=a\n")) (text "k") (text "xyz" ++ List.replicate 5 0) =
        some (0, buf₂) ∧
      cstr buf₁ = trim isspace (text "a\n") ∧ cstr buf₂ = trim isspace (text "a\n")) ↔
      HoldsBlank (text "a\n") (List.replicate 8 0) ∧
        HoldsBlank (text "a\n") (text "xyz" ++ List.replicate 5 0) :=
  lookup_independent_iff (by decide) (by decide) (by decide) (by decide) (by decide)

/-- A buffer that still holds `xyz` gets the last byte of it behind the value. -/
theorem lookup_depends_on_buffer : ∃ buf₁ buf₂,
    fileGetValue (some (text "k=a\n")) (text "k") (List.replicate 8 0) = some (0, buf₁) ∧
      fileGetValue (some (text "k=a\n")) (text "k") (text "xyz" ++ List.replicate 5 0) =
        some (0, buf₂) ∧ cstr buf₁ = text "a" ∧ cstr buf₂ = text "a\nz" := by
  refine ⟨text "a" ++ List.replicate 7 0, text "a\nz" ++ List.replicate 5 0, ?_⟩
  have hlookup : lookup (text "k=a\n") (text "k") = some (text "a\n") := by decide
  rw [fileGetValue_lookup, fileGetValue_lookup, hlookup]
  decide

end ParseKv
end CFunction
