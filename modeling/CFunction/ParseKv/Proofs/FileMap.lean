import CFunction.ParseKv.Proofs.FileLines

/-!
# The file as a map

A file that updates have written is the lines of a table with one entry per key. An update is
`Table.put` on that table, whether it appends a line or rewrites the file, and a lookup finds the
entry.
-/

namespace CFunction
namespace ParseKv

open CString BoundedLines

/-- The file of a table. -/
def encode (t : List (Bytes × Bytes)) : Bytes := t.flatMap fun e => kvLine e.1 e.2

theorem encode_cons (e : Bytes × Bytes) (t : List (Bytes × Bytes)) :
    encode (e :: t) = kvLine e.1 e.2 ++ encode t := rfl

theorem encode_concat (t : List (Bytes × Bytes)) (key value : Bytes) :
    encode (t ++ [(key, value)]) = encode t ++ kvLine key value := by
  simp [encode]

/-- The tables that updates build: pairs that fit into a line, one for each key. -/
structure ValidTable (t : List (Bytes × Bytes)) : Prop where
  entries : ∀ e ∈ t, Valid e.1 e.2
  keys : (t.map Prod.fst).Nodup

theorem ValidTable.put {t : List (Bytes × Bytes)} (h : ValidTable t) {key value : Bytes}
    (hvalid : Valid key value) : ValidTable (Table.put t key value) :=
  ⟨Table.forall_mem_put h.entries hvalid, Table.keys_put_nodup h.keys key value⟩

theorem ValidTable.tail {e : Bytes × Bytes} {t : List (Bytes × Bytes)} (h : ValidTable (e :: t)) :
    ValidTable t :=
  ⟨fun e' he' => h.entries e' (List.mem_cons_of_mem e he'), (List.nodup_cons.1 h.keys).2⟩

theorem length_le_encode (t : List (Bytes × Bytes)) : t.length ≤ (encode t).length := by
  induction t with
  | nil => exact Nat.le_refl 0
  | cons e t ih =>
    rw [encode_cons, List.length_append, kvLine_length, List.length_cons]
    omega

/-- Overwriting the one line of a key lengthens the file by less than the new value. -/
theorem encode_assign_length {t : List (Bytes × Bytes)} (h : (t.map Prod.fst).Nodup)
    (key value : Bytes) :
    (encode (Table.assign t key value)).length ≤ (encode t).length + value.length := by
  induction t with
  | nil => exact Nat.zero_le _
  | cons e t ih =>
    rw [List.map_cons, List.nodup_cons] at h
    rw [Table.assign_cons, encode_cons, encode_cons, List.length_append, List.length_append]
    by_cases he : e.1 = key
    · rw [if_pos he, Table.assign_of_notMem (he ▸ h.1), kvLine_length, kvLine_length]
      simp only
      omega
    · rw [if_neg he]
      have hrest := ih h.2
      omega

theorem encode_put_length {t : List (Bytes × Bytes)} (h : ValidTable t) {key value : Bytes}
    (hvalid : Valid key value) :
    (encode (Table.put t key value)).length ≤ (encode t).length + 255 := by
  have hfits := hvalid.fits
  unfold Table.put
  split
  · have hassign := encode_assign_length h.keys key value
    omega
  · rw [encode_concat, List.length_append, kvLine_length]
    omega

/-! ### The loop of an update -/

theorem linebuf_zeros : Contains (List.replicate KV_SIZE 0) [] := contains_zeros (by decide)

/-- The entry that an update writes for `e`. -/
theorem encode_assign_cons (e : Bytes × Bytes) (t : List (Bytes × Bytes)) (key value : Bytes) :
    encode (Table.assign (e :: t) key value) =
      kvLine e.1 (if e.1 = key then value else e.2) ++ encode (Table.assign t key value) := by
  rw [Table.assign_cons, encode_cons]
  by_cases he : e.1 = key
  · rw [if_pos he, if_pos he]
  · rw [if_neg he, if_neg he]

/-- A round of the loop copies one line, with the new value if it is the line of the key. -/
theorem copyLines_line {key value key' old rest filebuf acc : Bytes} {fp : Stream}
    (hvalid : Valid key value) (hentry : Valid key' old) (hrest : fp.rest = kvLine key' old ++ rest)
    (heof : fp.eof = false) (hacc : Contains filebuf acc)
    (hroom : acc.length + (kvLine key' (if key' = key then value else old)).length + 1 ≤
      filebuf.length) :
    ∃ filebuf', Contains filebuf' (acc ++ kvLine key' (if key' = key then value else old)) ∧
      filebuf'.length = filebuf.length ∧
      ∀ fuel flag, copyLines key value (fuel + 1) fp filebuf flag =
        copyLines key value fuel ⟨fp.before ++ kvLine key' old, rest, false⟩ filebuf'
          (flag || decide (key' = key)) := by
  have hlength : (List.replicate KV_SIZE (0 : UInt8)).length = KV_SIZE := List.length_replicate
  obtain ⟨linebuf, hfgets, hline, hsize⟩ := fgets_line hentry hlength hrest
  have hmatch : kvIsKeyEqual (kvLine key' old) key = decide (key' = key) :=
    kvIsKeyEqual_kvLine hentry.validKey hvalid.validKey old
  by_cases he : key' = key
  · subst he
    rw [if_pos rfl] at hroom ⊢
    obtain ⟨linebuf', hreplace, hnew, -⟩ := replaceValue_eq hsize hvalid hline
    obtain ⟨filebuf', hcat, hcontains, hlen⟩ := hacc.strcat hvalid.zero_notMem hroom
    refine ⟨filebuf', hcontains, hlen, fun fuel flag => ?_⟩
    rw [copyLines, hfgets, heof]
    simp only [Option.bind_eq_bind, Option.bind_some, hline.cstr_eq, hmatch, decide_true, if_true,
      hreplace, hnew.cstr_eq, hcat, Bool.or_true]
    rfl
  · rw [if_neg he] at hroom ⊢
    obtain ⟨filebuf', hcat, hcontains, hlen⟩ := hacc.strcat hentry.zero_notMem hroom
    refine ⟨filebuf', hcontains, hlen, fun fuel flag => ?_⟩
    rw [decide_eq_false he] at hmatch ⊢
    rw [copyLines, hfgets, heof]
    simp only [Option.bind_eq_bind, Option.bind_some, hline.cstr_eq, hmatch, hcat, Bool.or_false]
    rfl

/-- The loop copies the table with the new value into `filebuf`. -/
theorem copyLines_eq {key value : Bytes} (hvalid : Valid key value) (t : List (Bytes × Bytes)) :
    ∀ (fuel : Nat) (fp : Stream) (filebuf acc : Bytes) (flag : Bool), ValidTable t →
    fp.rest = encode t → fp.eof = false → Contains filebuf acc →
    acc.length + (encode (Table.assign t key value)).length + 1 ≤ filebuf.length →
    t.length < fuel →
    ∃ filebuf', copyLines key value fuel fp filebuf flag =
        some (⟨fp.before ++ encode t, [], true⟩, filebuf',
          flag || decide (key ∈ t.map Prod.fst)) ∧
      Contains filebuf' (acc ++ encode (Table.assign t key value)) := by
  induction t with
  | nil =>
    intro fuel fp filebuf acc flag _ hrest heof hacc hroom hfuel
    obtain ⟨fuel, rfl⟩ := Nat.exists_eq_add_one.2 hfuel
    obtain ⟨filebuf', hcat, hcontains, -⟩ := hacc.strcat (t := []) List.not_mem_nil hroom
    have hdone : copyLines key value fuel ⟨fp.before, [], true⟩ filebuf' flag =
        some (⟨fp.before, [], true⟩, filebuf', flag) := by
      cases fuel <;> rfl
    refine ⟨filebuf', ?_, hcontains⟩
    rw [copyLines, heof, fgets_end hrest]
    simp only [linebuf_zeros.cstr_eq, not_kvIsKeyEqual_empty key, hcat, hdone,
      Option.bind_eq_bind, Option.bind_some]
    simp [encode]
  | cons e t ih =>
    intro fuel fp filebuf acc flag htable hrest heof hacc hroom hfuel
    obtain ⟨fuel, rfl⟩ := Nat.exists_eq_add_one.2 (Nat.zero_lt_of_lt hfuel)
    have hentry : Valid e.1 e.2 := htable.entries e List.mem_cons_self
    rw [encode_cons] at hrest
    rw [encode_assign_cons, List.length_append] at hroom
    obtain ⟨filebuf₁, hacc₁, hlen₁, hround⟩ :=
      copyLines_line hvalid hentry hrest heof hacc (by omega)
    obtain ⟨filebuf', hloop, hcontains⟩ :=
      ih fuel ⟨fp.before ++ kvLine e.1 e.2, encode t, false⟩ filebuf₁ _
        (flag || decide (e.1 = key)) htable.tail rfl rfl hacc₁
        (by rw [List.length_append, hlen₁]; omega) (Nat.lt_of_succ_lt_succ hfuel)
    refine ⟨filebuf', ?_, ?_⟩
    · rw [hround, hloop, encode_cons, List.append_assoc, Bool.or_assoc]
      simp only [List.map_cons, List.mem_cons, Bool.decide_or, eq_comm]
    · rw [encode_assign_cons, ← List.append_assoc]
      exact hcontains

/-! ### A whole update -/

/-- What `malloc` is asked for. Only below the range of `int` can it be granted. -/
theorem request_le_iff {disk : Option Bytes} (hsize : (opened disk).length ≤ 2147483647) :
    request disk ≤ PTRDIFF_MAX ↔ (opened disk).length + 256 ≤ 2147483647 := by
  have hkv : KV_SIZE = 256 := rfl
  simp only [request, PTRDIFF_MAX, toSize, toInt32, hkv]
  omega

theorem request_eq {disk : Option Bytes} (hsize : (opened disk).length + 256 ≤ 2147483647) :
    request disk = (opened disk).length + 256 := by
  have hkv : KV_SIZE = 256 := rfl
  simp only [request, toSize, toInt32, hkv]
  omega

/-- An update puts the value into the table. -/
theorem fileUpdateValue_eq {disk : Option Bytes} {t : List (Bytes × Bytes)} {key value : Bytes}
    (htable : ValidTable t) (hdisk : opened disk = encode t)
    (hsize : (opened disk).length + 256 ≤ 2147483647) (hvalid : Valid key value) :
    fileUpdateValue true disk key value = some (some (encode (Table.put t key value)), 0) := by
  have hfits := hvalid.fits
  have hassign := encode_assign_length htable.keys key value
  have hlen := length_le_encode t
  rw [hdisk] at hsize
  have hrequest : request disk = (encode t).length + 256 := by
    rw [request_eq (by rw [hdisk]; omega), hdisk]
  obtain ⟨filebuf, hloop, hcontains⟩ := copyLines_eq hvalid t ((encode t).length + 1)
    (.start (encode t)) (List.replicate (request disk) 0) [] false htable rfl rfl
    (contains_zeros (by omega))
    (by rw [List.length_replicate, hrequest, List.length_nil]; omega) (by omega)
  simp only [fileUpdateValue, hdisk, hloop, Option.bind_eq_bind, Option.bind_some]
  by_cases hkey : key ∈ t.map Prod.fst
  · simp [hkey, Table.put, Stream.truncated, Stream.start, Stream.write, Stream.content,
      hcontains.cstr_eq]
  · simp [hkey, Table.put, Stream.start, Stream.write, Stream.content, encode_concat]

/-! ### A lookup -/

/-- The lines that a lookup reads are those of the entries. -/
theorem lineStrings_encode {t : List (Bytes × Bytes)} (h : ValidTable t) :
    lineStrings (encode t) = t.map fun e => kvLine e.1 e.2 := by
  induction t with
  | nil => rfl
  | cons e t ih =>
    have hentry : Valid e.1 e.2 := h.entries e List.mem_cons_self
    have hfits : ([] : Bytes).length + (e.1 ++ equals :: e.2).length < LINE_MAX := by
      have hsize := hentry.fits
      have hmax : LINE_MAX = 255 := rfl
      rw [List.length_nil, List.length_append, List.length_cons]
      omega
    have hline := cut_line hentry.nl_notMem hfits
    have hrest := ih h.tail
    rw [lineStrings, readLines] at hrest
    rw [encode_cons, kvLine_eq, List.append_assoc, List.singleton_append, lineStrings, readLines,
      cut_append_stop, hline, List.map_append, hrest]
    exact congrArg (fun s => s :: t.map fun e => kvLine e.1 e.2)
      (lineString_of_notMem hentry.zero_notMem)

/-- A lookup finds the entry of the key. -/
theorem lookup_encode {t : List (Bytes × Bytes)} (h : ValidTable t) {key : Bytes}
    (hkey : ValidKey key) : lookup (encode t) key = (Table.get t key).map (· ++ [nl]) := by
  rw [lookup, lineStrings_encode h]
  induction t with
  | nil => rfl
  | cons e t ih =>
    have hentry : Valid e.1 e.2 := h.entries e List.mem_cons_self
    have hmatch := kvIsKeyEqual_kvLine hentry.validKey hkey e.2
    rw [List.map_cons, List.find?_cons, hmatch, Table.get]
    by_cases he : e.1 = key
    · rw [decide_eq_true he, if_pos he, kvLine, List.append_assoc, List.cons_append]
      exact congrArg some (valueText_append hentry.validKey.no_equals _)
    · rw [decide_eq_false he, if_neg he]
      exact ih h.tail

/-- A lookup in the file of a table. -/
theorem fileGetValue_eq {t : List (Bytes × Bytes)} (htable : ValidTable t) {key : Bytes}
    (hkey : ValidKey key) (n : Nat) (hroom : ∀ value, Table.get t key = some value →
      value.length + 2 ≤ n) :
    match Table.get t key with
    | none => fileGetValue (some (encode t)) key (List.replicate n 0) =
        some (-3, List.replicate n 0)
    | some value => ∃ buf, fileGetValue (some (encode t)) key (List.replicate n 0) =
        some (0, buf) ∧ cstr buf = value := by
  have hlookup := lookup_encode htable hkey
  cases hget : Table.get t key with
  | none =>
    rw [hget] at hlookup
    exact fileGetValue_none hlookup _
  | some value =>
    have hvalid : Valid key value := htable.entries (key, value) (Table.mem_of_get hget)
    have hsize := hroom value hget
    have hfits : (value ++ [nl]).length < n := by
      rw [List.length_append, List.length_singleton]
      exact hsize
    have hnewline : ∀ c ∈ [nl], isspace c := by
      intro c hc
      rw [List.mem_singleton.1 hc]
      decide
    rw [hget] at hlookup
    have hint : (value ++ [nl]).length ≤ INT_MAX :=
      Nat.le_trans (Nat.le_of_lt (length_lookup_lt_size hlookup)) (by decide)
    obtain ⟨buf, hcopy, hstring⟩ := copyTrimmed_zeros (zero_notMem_lookup hlookup) hint hfits
    refine ⟨buf, (fileGetValue_some hlookup _).trans hcopy, ?_⟩
    rw [hstring, hvalid.validValue.delBlank hnewline]

end ParseKv
end CFunction
