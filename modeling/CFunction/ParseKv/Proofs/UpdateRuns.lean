import CFunction.ParseKv.Proofs.FileMap
import Mathlib.Data.List.Induction

/-!
# Runs of updates

Starting without a file, after any run of updates the file is that of the table into which their
pairs have been put one after the other.
-/

namespace CFunction
namespace ParseKv

open CString

/-- The table of the pairs of `us`. -/
def tableOf (us : List Update) : List (Bytes × Bytes) :=
  us.foldl (fun t u => Table.put t u.key u.value) []

theorem tableOf_concat (us : List Update) (u : Update) :
    tableOf (us ++ [u]) = Table.put (tableOf us) u.key u.value := by
  simp [tableOf]

/-- The value of the last update of `key`. -/
def lastValue (us : List Update) (key : Bytes) : Option Bytes :=
  (us.reverse.find? (·.key = key)).map Update.value

theorem get_tableOf (us : List Update) (key : Bytes) :
    Table.get (tableOf us) key = lastValue us key := by
  induction us using List.reverseRecOn with
  | nil => rfl
  | append_singleton us u ih =>
    rw [tableOf_concat, lastValue, List.reverse_concat, List.find?_cons]
    by_cases hu : u.key = key
    · rw [hu, Table.get_put_self]
      simp
    · rw [Table.get_put_of_ne (Ne.symm hu), ih, decide_eq_false hu]
      rfl

theorem ne_nil_of_lastValue {us : List Update} {key value : Bytes}
    (h : lastValue us key = some value) : us ≠ [] := by
  rintro rfl
  cases h

/-- The lines of a file, each with its newline. -/
def fileLines : Bytes → List Bytes
  | [] => []
  | b :: rest =>
    if b = nl then [b] :: fileLines rest
    else match fileLines rest with
      | [] => [[b]]
      | line :: lines => (b :: line) :: lines

theorem fileLines_line {s : Bytes} (h : nl ∉ s) (rest : Bytes) :
    fileLines (s ++ nl :: rest) = (s ++ [nl]) :: fileLines rest := by
  induction s with
  | nil => rw [List.nil_append, fileLines, if_pos rfl, List.nil_append]
  | cons b s ih =>
    rw [List.mem_cons, not_or] at h
    rw [List.cons_append, fileLines, if_neg (Ne.symm h.1), ih h.2]
    rfl

theorem fileLines_encode {t : List (Bytes × Bytes)} (h : ValidTable t) :
    fileLines (encode t) = t.map fun e => kvLine e.1 e.2 := by
  induction t with
  | nil => rfl
  | cons e t ih =>
    have hentry := h.entries e List.mem_cons_self
    rw [encode_cons, kvLine_eq, List.append_assoc, List.singleton_append,
      fileLines_line hentry.nl_notMem, ih h.tail]
    rfl

/-- A key of the table is matched by exactly one line of its file. -/
theorem filter_encode {t : List (Bytes × Bytes)} (h : ValidTable t) {key value : Bytes}
    (hkey : ValidKey key) (hget : Table.get t key = some value) :
    (fileLines (encode t)).filter (kvIsKeyEqual · key) = [kvLine key value] := by
  rw [fileLines_encode h]
  induction t with
  | nil => cases hget
  | cons e t ih =>
    have hentry := h.entries e List.mem_cons_self
    have hmatch := kvIsKeyEqual_kvLine hentry.validKey hkey e.2
    have hnodup := (List.nodup_cons.1 h.keys).1
    rw [Table.get] at hget
    rw [List.map_cons, List.filter_cons, hmatch]
    by_cases he : e.1 = key
    · rw [if_pos he] at hget
      obtain rfl := Option.some.inj hget
      have hrest : (t.map fun e => kvLine e.1 e.2).filter (kvIsKeyEqual · key) = [] := by
        rw [List.filter_eq_nil_iff]
        intro line hline
        obtain ⟨e', he', rfl⟩ := List.mem_map.1 hline
        have hne : e'.1 ≠ key := by
          intro heq
          exact hnodup (by rw [he, ← heq]; exact List.mem_map_of_mem he')
        rw [kvIsKeyEqual_kvLine (h.tail.entries e' he').validKey hkey, decide_eq_false hne]
        exact Bool.false_ne_true
      rw [decide_eq_true he, if_pos rfl, hrest, he]
    · rw [if_neg he] at hget
      rw [decide_eq_false he, if_neg Bool.false_ne_true]
      exact ih h.tail hget

/-- What the disk is after the updates `us`. -/
structure Holds (us : List Update) (disk : Option Bytes) : Prop where
  table : ValidTable (tableOf us)
  content : opened disk = encode (tableOf us)
  exist : us ≠ [] → disk = some (encode (tableOf us))
  size : (opened disk).length ≤ 2147483647
  returns : ∀ u ∈ us, u.ret = 0

/-- An update with a granted allocation, from the disk of a run. -/
theorem Holds.update {us : List Update} {disk : Option Bytes} (h : Holds us disk)
    {key value : Bytes} (hvalid : Valid key value) (hrequest : request disk ≤ PTRDIFF_MAX) :
    fileUpdateValue true disk key value =
        some (some (encode (Table.put (tableOf us) key value)), 0) ∧
      (encode (Table.put (tableOf us) key value)).length ≤ 2147483647 := by
  have hsize := (request_le_iff h.size).1 hrequest
  have hgrow := encode_put_length h.table hvalid
  rw [h.content] at hsize
  refine ⟨fileUpdateValue_eq h.table h.content (by rw [h.content]; exact hsize) hvalid, ?_⟩
  omega

/-- What one update preserves. -/
theorem Holds.step {us : List Update} {disk disk' : Option Bytes} {u : Update} (h : Holds us disk)
    (hvalid : Valid u.key u.value) (hgranted : u.granted = true) (hstep : Step disk u disk') :
    Holds (us ++ [u]) disk' := by
  obtain ⟨hgrant, hupdate⟩ := hstep
  obtain ⟨hresult, hsize⟩ := h.update hvalid (hgrant hgranted)
  rw [hgranted, hresult] at hupdate
  obtain ⟨rfl, hret⟩ := Prod.mk.inj (Option.some.inj hupdate)
  rw [← tableOf_concat] at hsize
  refine ⟨?_, ?_, ?_, ?_, ?_⟩
  · rw [tableOf_concat]
    exact h.table.put hvalid
  · rw [tableOf_concat]
    rfl
  · intro _
    rw [tableOf_concat]
  · rw [← tableOf_concat]
    exact hsize
  · intro u' hu'
    rcases List.mem_append.1 hu' with hu' | hu'
    · exact h.returns u' hu'
    · rw [List.mem_singleton.1 hu']
      exact hret.symm

theorem run_holds {us : List Update} {disk : Option Bytes} (run : Run Step none us disk) :
    (∀ u ∈ us, Valid u.key u.value ∧ u.granted = true) → Holds us disk := by
  refine run.invariant (P := fun us disk =>
    (∀ u ∈ us, Valid u.key u.value ∧ u.granted = true) → Holds us disk) ?_ ?_
  · intro _
    exact ⟨⟨by simp [tableOf], by simp [tableOf]⟩, rfl, fun h => absurd rfl h, by simp [opened],
      by simp⟩
  · intro us disk u disk' ih hstep hall
    obtain ⟨hvalid, hgranted⟩ := hall u (by simp)
    exact (ih fun u' hu' => hall u' (by simp [hu'])).step hvalid hgranted hstep

/-- The file after a run of updates behaves as a map. -/
structure BehavesAsMap (us : List Update) (disk : Option Bytes) : Prop where
  /-- Every call has returned 0. -/
  returns : ∀ u ∈ us, u.ret = 0
  /-- Another call returns 0 if its allocation is granted. -/
  next : ∀ key value, Valid key value → request disk ≤ PTRDIFF_MAX →
    ∃ disk', fileUpdateValue true disk key value = some (disk', 0)
  /-- A lookup gives the last value, into a zero-filled buffer that is large enough. -/
  found : ∀ key value, ValidKey key → lastValue us key = some value →
    ∀ n, value.length + 2 ≤ n →
      ∃ buf, fileGetValue disk key (List.replicate n 0) = some (0, buf) ∧ cstr buf = value
  /-- A key that was never updated is not found. -/
  missing : us ≠ [] → ∀ key, ValidKey key → lastValue us key = none →
    ∀ n, ∃ buf, fileGetValue disk key (List.replicate n 0) = some (-3, buf)
  /-- An updated key has exactly one line, which holds its last value. -/
  one_line : ∀ key value, lastValue us key = some value → ∃ content, disk = some content ∧
    (fileLines content).filter (kvIsKeyEqual · key) = [kvLine key value]
  /-- The last update again changes nothing. -/
  again : ∀ us' u, us = us' ++ [u] → request disk ≤ PTRDIFF_MAX →
    fileUpdateValue true disk u.key u.value = some (disk, 0)

theorem file_behaves_as_map {us : List Update} {disk : Option Bytes} (run : Run Step none us disk)
    (hall : ∀ u ∈ us, Valid u.key u.value ∧ u.granted = true) : BehavesAsMap us disk := by
  have hholds := run_holds run hall
  refine ⟨hholds.returns, ?_, ?_, ?_, ?_, ?_⟩
  · intro key value hvalid hrequest
    exact ⟨_, (hholds.update hvalid hrequest).1⟩
  · intro key value hkey hlast n hn
    have hget : Table.get (tableOf us) key = some value := (get_tableOf us key).trans hlast
    have hlookup := fileGetValue_eq hholds.table hkey n (by
      intro value' hvalue'
      rw [hget] at hvalue'
      rw [← Option.some.inj hvalue']
      exact hn)
    rw [hget] at hlookup
    rw [hholds.exist (ne_nil_of_lastValue hlast)]
    exact hlookup
  · intro hne key hkey hlast n
    have hget : Table.get (tableOf us) key = none := (get_tableOf us key).trans hlast
    have hlookup := fileGetValue_eq hholds.table hkey n (by
      intro value' hvalue'
      rw [hget] at hvalue'
      cases hvalue')
    rw [hget] at hlookup
    rw [hholds.exist hne]
    exact ⟨_, hlookup⟩
  · intro key value hlast
    have hget : Table.get (tableOf us) key = some value := (get_tableOf us key).trans hlast
    have hkey := (hholds.table.entries (key, value) (Table.mem_of_get hget)).validKey
    exact ⟨_, hholds.exist (ne_nil_of_lastValue hlast), filter_encode hholds.table hkey hget⟩
  · intro us' u hus hrequest
    have hvalid := (hall u (by rw [hus]; simp)).1
    have htwice : Table.put (tableOf us) u.key u.value = tableOf us := by
      rw [hus, tableOf_concat, Table.put_put]
    rw [(hholds.update hvalid hrequest).1, htwice, ← hholds.exist (by rw [hus]; simp)]

/-- An update of a run, with a granted allocation, can be made, and returns 0. -/
theorem Holds.exists_step {us : List Update} {disk : Option Bytes} (h : Holds us disk)
    {key value : Bytes} (hvalid : Valid key value)
    (hroom : (encode (tableOf us)).length + 256 ≤ 2147483647) :
    ∃ disk', Step disk ⟨key, value, true, 0⟩ disk' := by
  rw [← h.content] at hroom
  have hrequest := (request_le_iff h.size).2 hroom
  exact ⟨_, fun _ => hrequest, (h.update hvalid hrequest).1⟩

def sampleUpdates : List Update :=
  [⟨text "mode", text "on", true, 0⟩, ⟨text "pump", text "left side", true, 0⟩,
    ⟨text "mode", text "o=f", true, 0⟩]

/-- Two keys, from no file; the first of them is updated again. -/
theorem file_behaves_as_map_sample :
    ∃ disk, BehavesAsMap sampleUpdates disk ∧ lastValue sampleUpdates (text "mode") =
      some (text "o=f") := by
  have hstart := run_holds .nil fun u hu => absurd hu List.not_mem_nil
  obtain ⟨disk, hfirst⟩ := hstart.exists_step (show Valid (text "mode") (text "on") by decide)
    (by decide)
  have hone := hstart.step (by decide) rfl hfirst
  obtain ⟨disk', hsecond⟩ := hone.exists_step
    (show Valid (text "pump") (text "left side") by decide) (by decide)
  have htwo := hone.step (by decide) rfl hsecond
  obtain ⟨disk'', hthird⟩ := htwo.exists_step (show Valid (text "mode") (text "o=f") by decide)
    (by decide)
  exact ⟨disk'', file_behaves_as_map (((Run.nil.snoc hfirst).snoc hsecond).snoc hthird)
    (by decide), by decide⟩

end ParseKv
end CFunction
