import CFunction.Json.Pointer

/-!
# Finding an item by its pointer

The pointer of an item leads back to it, one token for each child on the way, if no earlier
sibling on the way has the same name.
-/

namespace CFunction
namespace Json

open CString Numeral

variable {ν : Type} {caseSensitive : Bool}

/-! ### Names -/

theorem length_encodeStringAsPointer (s : Bytes) :
    (encodeStringAsPointer s).length = pointerEncodedLength s := by
  induction s with
  | nil => rfl
  | cons c s ih =>
    rw [encodeStringAsPointer, pointerEncodedLength, List.length_append, ih]
    split
    · rename_i h
      rw [if_pos (Or.inr h)]
      rfl
    · split
      · rename_i h
        rw [if_pos (Or.inl h)]
        rfl
      · rename_i h h'
        rw [if_neg (not_or.2 ⟨h', h⟩)]
        rfl

theorem slash_notMem_encode (s : Bytes) : ascii '/' ∉ encodeStringAsPointer s := by
  induction s with
  | nil => exact List.not_mem_nil
  | cons c s ih =>
    rw [encodeStringAsPointer, List.mem_append, not_or]
    refine ⟨?_, ih⟩
    split
    · decide
    split
    · decide
    · rename_i h _
      exact fun hmem => h (List.mem_singleton.1 hmem).symm

theorem tolower_special {c p : UInt8} (hp : p = ascii '~' ∨ p = ascii '/') :
    tolower c = tolower p ↔ c = p := by
  refine ⟨fun h => ?_, fun h => h ▸ rfl⟩
  have hpp : tolower p = p := by
    rcases hp with rfl | rfl <;> rfl
  rw [hpp, tolower] at h
  split at h
  · rename_i hc
    exfalso
    rw [← UInt8.toNat_inj, UInt8.toNat_add] at h
    simp only [UInt8.le_iff_toNat_le] at hc
    have h1 : (65 : UInt8).toNat = 65 := rfl
    have h2 : (90 : UInt8).toNat = 90 := rfl
    have h3 : (32 : UInt8).toNat = 32 := rfl
    have h4 : (ascii '~').toNat = 126 := rfl
    have h5 : (ascii '/').toNat = 47 := rfl
    rcases hp with rfl | rfl <;> omega
  · exact h

/-- Two characters count as the same in a name. -/
def sameChar (caseSensitive : Bool) (n p : UInt8) : Bool :=
  if caseSensitive then n = p else tolower n = tolower p

theorem spelling_cons (n : UInt8) (name : Bytes) :
    spelling caseSensitive (n :: name) =
      (if caseSensitive then n else tolower n) :: spelling caseSensitive name := by
  cases caseSensitive <;> rfl

theorem spelling_cons_eq_iff (n p : UInt8) (name name' : Bytes) :
    spelling caseSensitive (n :: name) = spelling caseSensitive (p :: name') ↔
      sameChar caseSensitive n p = true ∧ spelling caseSensitive name =
        spelling caseSensitive name' := by
  rw [spelling_cons, spelling_cons, List.cons.injEq, sameChar]
  cases caseSensitive <;> simp

theorem sameChar_special {n p : UInt8} (hp : p = ascii '~' ∨ p = ascii '/') :
    sameChar caseSensitive n p = true ↔ n = p := by
  cases caseSensitive
  · simpa [sameChar] using tolower_special hp
  · simp [sameChar]

theorem comparePointers_slash (n : UInt8) (name rest : Bytes) :
    comparePointers caseSensitive (n :: name) (ascii '~' :: ascii '1' :: rest) = true ↔
      n = ascii '/' ∧ comparePointers caseSensitive name rest = true := by
  simp [comparePointers, ascii]

theorem comparePointers_tilde (n : UInt8) (name rest : Bytes) :
    comparePointers caseSensitive (n :: name) (ascii '~' :: ascii '0' :: rest) = true ↔
      n = ascii '~' ∧ comparePointers caseSensitive name rest = true := by
  simp [comparePointers, ascii]

theorem comparePointers_plain {p : UInt8} (hslash : p ≠ ascii '/') (htilde : p ≠ ascii '~')
    (n : UInt8) (name rest : Bytes) :
    comparePointers caseSensitive (n :: name) (p :: rest) = true ↔
      sameChar caseSensitive n p = true ∧ comparePointers caseSensitive name rest = true := by
  rw [comparePointers.eq_def]
  dsimp only
  rw [if_neg hslash, if_neg htilde, sameChar]
  cases caseSensitive
  · by_cases h : tolower n = tolower p
    · simp [h]
    · simp [h]
  · by_cases h : n = p
    · simp [h]
    · simp [h]

theorem comparePointers_nil (name' tail : Bytes) (htail : tokenEnds tail = true) :
    comparePointers caseSensitive [] (encodeStringAsPointer name' ++ tail) = true ↔ name' = [] := by
  cases name' with
  | nil =>
    refine iff_of_true ?_ rfl
    cases tail with
    | nil => rfl
    | cons c tail => exact htail
  | cons p name' =>
    refine iff_of_false ?_ (List.cons_ne_nil p name')
    rw [encodeStringAsPointer]
    split
    · simp [comparePointers, ascii]
    split
    · simp [comparePointers, ascii]
    · rename_i h _
      simpa [comparePointers] using h

theorem comparePointers_end (n : UInt8) (name tail : Bytes) (htail : tokenEnds tail = true) :
    comparePointers caseSensitive (n :: name) tail = false := by
  cases tail with
  | nil => rfl
  | cons c tail =>
    have hc : c = ascii '/' := of_decide_eq_true htail
    rw [comparePointers.eq_def]
    exact if_pos hc

/-- A token finds the names that are spelled as the one it was written for. -/
theorem comparePointers_encode (name name' tail : Bytes) (htail : tokenEnds tail = true) :
    comparePointers caseSensitive name (encodeStringAsPointer name' ++ tail) = true ↔
      spelling caseSensitive name = spelling caseSensitive name' := by
  have hnil : spelling caseSensitive [] = [] := by cases caseSensitive <;> rfl
  induction name generalizing name' with
  | nil =>
    rw [comparePointers_nil name' tail htail, hnil]
    cases name' with
    | nil => exact iff_of_true rfl hnil.symm
    | cons p name' =>
      rw [spelling_cons]
      exact iff_of_false (List.cons_ne_nil _ _) (List.cons_ne_nil _ _).symm
  | cons n name ih =>
    cases name' with
    | nil =>
      rw [hnil, spelling_cons, encodeStringAsPointer, List.nil_append,
        comparePointers_end n name tail htail]
      exact iff_of_false Bool.false_ne_true (List.cons_ne_nil _ _)
    | cons p name' =>
      refine Iff.trans ?_ ((spelling_cons_eq_iff n p name name').trans
        (and_congr_right' (ih name').symm)).symm
      rw [encodeStringAsPointer, List.append_assoc]
      by_cases hslash : p = ascii '/'
      · rw [if_pos hslash, sameChar_special (Or.inr hslash), hslash]
        exact comparePointers_slash n name _
      by_cases htilde : p = ascii '~'
      · rw [if_neg hslash, if_pos htilde, sameChar_special (Or.inl htilde), htilde]
        exact comparePointers_tilde n name _
      · rw [if_neg hslash, if_neg htilde]
        exact comparePointers_plain hslash htilde n name _

/-! ### Indices -/

theorem tokenEnds_head {c : UInt8} {tail : Bytes} (htail : tokenEnds (c :: tail) = true) :
    ¬ ascii '0' ≤ c := by
  have hc : c = ascii '/' := of_decide_eq_true htail
  rw [hc]
  decide

theorem indexLoop_digits {first : UInt8} (hfirst : first ≤ ascii '9') {ds : List Nat}
    (hds : ∀ d ∈ ds, d < 10) (acc : Nat) (tail : Bytes) (htail : tokenEnds tail = true)
    (hfit : ds.foldl (fun v d => 10 * v + d) acc < 18446744073709551616) :
    indexLoop first acc (ds.map digitChar ++ tail) =
      (ds.foldl (fun v d => 10 * v + d) acc, tail) := by
  induction ds generalizing acc with
  | nil =>
    cases tail with
    | nil => rfl
    | cons c tail =>
      rw [List.map_nil, List.nil_append, indexLoop, if_neg fun h => tokenEnds_head htail h.1]
      rfl
  | cons d ds ih =>
    have hd := hds d List.mem_cons_self
    have hchar : ascii '0' ≤ digitChar d ∧ (digitChar d).toNat - 48 = d := by
      have hall : ∀ d : Fin 10, ascii '0' ≤ digitChar d ∧ (digitChar d).toNat - 48 = d.val := by
        decide
      exact hall ⟨d, hd⟩
    have hmono : ∀ (es : List Nat) (v : Nat), v ≤ es.foldl (fun v d => 10 * v + d) v := by
      intro es
      induction es with
      | nil => exact fun v => Nat.le_refl v
      | cons e es ih =>
        intro v
        exact Nat.le_trans (by omega) (ih (10 * v + e))
    rw [List.foldl_cons] at hfit ⊢
    have hsmall := Nat.lt_of_le_of_lt (hmono ds (10 * acc + d)) hfit
    rw [List.map_cons, List.cons_append, indexLoop, if_pos ⟨hchar.1, hfirst⟩, hchar.2,
      Nat.mod_eq_of_lt hsmall]
    exact ih (fun e he => hds e (List.mem_cons_of_mem d he)) _ hfit

theorem foldl_reverse_digits (ds : List Nat) :
    ds.reverse.foldl (fun v d => 10 * v + d) 0 = Nat.ofDigits 10 ds := by
  rw [List.foldl_reverse, Nat.ofDigits_eq_foldr]
  congr 1
  funext d v
  exact Nat.add_comm _ _

/-- An index that fits a `size_t` is read as it was written. -/
theorem decodeArrayIndex_sprintfLu {n : Nat} (hn : n < 18446744073709551616) {tail : Bytes}
    (htail : tokenEnds tail = true) :
    decodeArrayIndexFromPointer (sprintfLu n ++ tail) = some n := by
  have hds : ∀ d ∈ (digitsOf 10 n).reverse, d < 10 := fun d hd =>
    lt_of_mem_digitsOf (by omega) (List.mem_reverse.1 hd)
  have hvalue : (digitsOf 10 n).reverse.foldl (fun v d => 10 * v + d) 0 = n := by
    rw [foldl_reverse_digits, ofDigits_digitsOf]
  have hlead := @digitsOf_leading 10 n
  have hne : (digitsOf 10 n).reverse ≠ [] := by
    rw [Ne, List.reverse_eq_nil_iff]
    exact digitsOf_ne_nil (by omega) n
  rw [sprintfLu]
  generalize hrev : (digitsOf 10 n).reverse = ds at *
  obtain ⟨d, ds', rfl⟩ := List.exists_cons_of_ne_nil hne
  have hd := hds d List.mem_cons_self
  have hchar : digitChar d ≤ ascii '9' ∧ (digitChar d = ascii '0' → d = 0) := by
    have hall : ∀ d : Fin 10, digitChar d ≤ ascii '9' ∧ (digitChar d = ascii '0' → d.val = 0) := by
      decide
    exact hall ⟨d, hd⟩
  have hzero : ¬ ((digitChar d :: (ds'.map digitChar ++ tail)).head? = some (ascii '0') ∧
      ¬ tokenEnds (ds'.map digitChar ++ tail) = true) := by
    rintro ⟨hhead, hmore⟩
    have hd0 := hchar.2 (Option.some.inj hhead)
    have hdigits := hlead (by rw [hd0]; rfl)
    rw [hdigits, List.reverse_singleton] at hrev
    have hds' : ds' = [] := ((List.cons.inj hrev).2).symm
    rw [hds'] at hmore
    exact hmore htail
  have hloop := indexLoop_digits hchar.1 hds 0 tail htail (by rw [hvalue]; exact hn)
  rw [List.map_cons, List.cons_append] at hloop ⊢
  rw [decodeArrayIndexFromPointer, List.tail_cons, if_neg hzero, List.headD_cons, hloop, hvalue]
  exact if_pos htail

theorem slash_notMem_sprintfLu (n : Nat) : ascii '/' ∉ sprintfLu n := by
  intro hmem
  obtain ⟨d, hd, heq⟩ := List.mem_map.1 hmem
  have hall : ∀ d : Fin 10, digitChar d ≠ ascii '/' := by decide
  exact hall ⟨d, lt_of_mem_digitsOf (by omega) (List.mem_reverse.1 hd)⟩ heq

/-! ### The way to an item -/

/-- The `i`-th child. -/
def childAt (item : Item ν) (i : Nat) : Option (Item ν) :=
  match item with
  | .array child => child[i]?
  | .object child => child[i]?.map Prod.snd
  | _ => none

/-- The item at a place. -/
def descend (item : Item ν) : List Nat → Option (Item ν)
  | [] => some item
  | i :: path => (childAt item i).bind (descend · path)

/-- On the way no earlier member is spelled as the member that is meant, and every index fits a
`size_t`. -/
def Unshadowed (caseSensitive : Bool) (item : Item ν) : List Nat → Prop
  | [] => True
  | i :: path =>
    i < 18446744073709551616 ∧
    (∀ child, item = .object child → ∀ (j : Nat) (m m' : Str × Item ν), j < i →
      child[j]? = some m → child[i]? = some m' →
        spelling caseSensitive m.1.val ≠ spelling caseSensitive m'.1.val) ∧
    ∀ c, childAt item i = some c → Unshadowed caseSensitive c path

theorem skipToken_append {token tail : Bytes} (htoken : ascii '/' ∉ token)
    (htail : tokenEnds tail = true) : skipToken (token ++ tail) = tail := by
  have hall : ∀ c ∈ token, (decide (c ≠ ascii '/')) = true := fun c hc =>
    decide_eq_true fun he => htoken (he ▸ hc)
  rw [skipToken, List.dropWhile_append_of_pos hall]
  cases tail with
  | nil => rfl
  | cons c tail =>
    have hc : c = ascii '/' := of_decide_eq_true htail
    rw [List.dropWhile_cons_of_neg]
    simpa using hc

theorem getItemFromPointer_token {item c : Item ν} {i : Nat} {token tail : Bytes}
    (htoken : ascii '/' ∉ token) (htail : tokenEnds tail = true)
    (hitem : tokenItem caseSensitive item (token ++ tail) = some (i, c)) (here : List Nat) :
    getItemFromPointer caseSensitive here item (ascii '/' :: token ++ tail) =
      getItemFromPointer caseSensitive (here ++ [i]) c tail := by
  rw [List.cons_append, getItemFromPointer, if_pos rfl, hitem]
  dsimp only
  rw [skipToken_append htoken htail]

/-! ### The search -/

/-- Nothing is found under an item that is not on the way. -/
theorem findPointer_prefix (item : Item ν) : ∀ here target : List Nat,
    (findPointer here target item).isSome → here <+: target := by
  have hleaf : ∀ here target : List Nat,
      (if here = target then some ([] : Bytes) else none).isSome → here <+: target := by
    intro here target h
    by_cases he : here = target
    · rw [he]
    · rw [if_neg he] at h
      cases h
  induction item using Item.ind with
  | null => exact hleaf
  | bool b => exact hleaf
  | int n => exact hleaf
  | number d => exact hleaf
  | string s => exact hleaf
  | raw s => exact hleaf
  | array child ih =>
    intro here target h
    rw [findPointer] at h
    split at h
    · rename_i he
      rw [he]
    generalize 0 = k at h
    induction child generalizing k with
    | nil => cases h
    | cons item rest ihrest =>
      rw [findInArray] at h
      split at h
      · rename_i s hs
        have hpre := ih item List.mem_cons_self (here ++ [k]) target (by rw [hs]; rfl)
        exact (List.prefix_append here [k]).trans hpre
      · exact ihrest (fun i hi => ih i (List.mem_cons_of_mem item hi)) (k + 1) h
  | object child ih =>
    intro here target h
    rw [findPointer] at h
    split at h
    · rename_i he
      rw [he]
    generalize 0 = k at h
    induction child generalizing k with
    | nil => cases h
    | cons member rest ihrest =>
      obtain ⟨name, item⟩ := member
      rw [findInObject] at h
      split at h
      · rename_i s hs
        have hpre := ih (name, item) List.mem_cons_self (here ++ [k]) target (by rw [hs]; rfl)
        exact (List.prefix_append here [k]).trans hpre
      · exact ihrest (fun i hi => ih i (List.mem_cons_of_mem _ hi)) (k + 1) h

theorem findPointer_other {here path : List Nat} {k i : Nat} (hne : k ≠ i) (item : Item ν) :
    findPointer (here ++ [k]) (here ++ i :: path) item = none := by
  cases h : findPointer (here ++ [k]) (here ++ i :: path) item with
  | none => rfl
  | some s =>
    have hpre := findPointer_prefix item (here ++ [k]) (here ++ i :: path) (by rw [h]; rfl)
    rw [List.prefix_append_right_inj, List.cons_prefix_cons] at hpre
    exact absurd hpre.1 hne

theorem findInArray_eq {here path : List Nat} {c : Item ν} {s : Bytes} :
    ∀ {child : List (Item ν)} {i k : Nat}, child[i]? = some c →
      findPointer (here ++ [k + i]) (here ++ (k + i) :: path) c = some s →
        findInArray here (here ++ (k + i) :: path) k child =
          some (ascii '/' :: sprintfLu (k + i) ++ s) := by
  intro child
  induction child with
  | nil => exact fun h => nomatch h
  | cons item rest ih =>
    intro i k hc hfind
    rw [findInArray]
    cases i with
    | zero =>
      cases hc
      rw [Nat.add_zero] at hfind ⊢
      rw [hfind]
    | succ i =>
      rw [findPointer_other (by omega)]
      have hshift : k + 1 + i = k + (i + 1) := by omega
      rw [← hshift] at hfind ⊢
      exact ih hc hfind

theorem findInObject_eq {here path : List Nat} {name : Str} {c : Item ν} {s : Bytes} :
    ∀ {child : List (Str × Item ν)} {i k : Nat}, child[i]? = some (name, c) →
      findPointer (here ++ [k + i]) (here ++ (k + i) :: path) c = some s →
        findInObject here (here ++ (k + i) :: path) k child =
          some (ascii '/' :: encodeStringAsPointer name.val ++ s) := by
  intro child
  induction child with
  | nil => exact fun h => nomatch h
  | cons member rest ih =>
    obtain ⟨name', item⟩ := member
    intro i k hc hfind
    rw [findInObject]
    cases i with
    | zero =>
      cases hc
      rw [Nat.add_zero] at hfind ⊢
      rw [hfind]
    | succ i =>
      rw [findPointer_other (by omega)]
      have hshift : k + 1 + i = k + (i + 1) := by omega
      rw [← hshift] at hfind ⊢
      exact ih hc hfind

theorem tokenItem_object {child : List (Str × Item ν)} {i : Nat} {name : Str} {c : Item ν}
    (hc : child[i]? = some (name, c))
    (hearlier : ∀ (j : Nat) (m : Str × Item ν), j < i → child[j]? = some m →
      spelling caseSensitive m.1.val ≠ spelling caseSensitive name.val)
    {tail : Bytes} (htail : tokenEnds tail = true) :
    tokenItem caseSensitive (.object child) (encodeStringAsPointer name.val ++ tail) =
      some (i, c) := by
  obtain ⟨hi, hget⟩ := List.getElem?_eq_some_iff.1 hc
  have hfound : child.findIdx? (fun member => comparePointers caseSensitive member.1.val
      (encodeStringAsPointer name.val ++ tail)) = some i := by
    rw [List.findIdx?_eq_some_iff_getElem]
    refine ⟨hi, ?_, fun j hj => ?_⟩
    · rw [hget]
      exact (comparePointers_encode _ _ _ htail).2 rfl
    · have hne := hearlier j child[j] hj (List.getElem?_eq_getElem (Nat.lt_trans hj hi))
      exact fun h => hne ((comparePointers_encode _ _ _ htail).1 h)
  simp only [tokenItem, hfound, hc, Option.bind_eq_bind, Option.bind_some]

/-- The pointer of an item leads back to it, from wherever the search started. -/
theorem findPointer_get {node : Item ν} {path : List Nat} : ∀ {item : Item ν} (here : List Nat),
    descend item path = some node → Unshadowed caseSensitive item path →
      ∃ s, findPointer here (here ++ path) item = some s ∧ tokenEnds s = true ∧
        getItemFromPointer caseSensitive here item s = some (here ++ path, node) := by
  induction path with
  | nil =>
    intro item here hnode _
    refine ⟨[], ?_, rfl, ?_⟩
    · rw [List.append_nil]
      cases item <;> exact if_pos rfl
    · rw [getItemFromPointer, List.append_nil, Option.some.inj hnode]
  | cons i path ih =>
    intro item here hnode hway
    obtain ⟨hfit, hearlier, hrest⟩ := hway
    rw [descend] at hnode
    obtain ⟨c, hc, hnode⟩ := Option.bind_eq_some_iff.1 hnode
    obtain ⟨s, hfind, hends, hget⟩ := ih (here ++ [i]) hnode (hrest c hc)
    rw [List.append_assoc, List.singleton_append] at hfind hget
    have hne : here ≠ here ++ i :: path := fun he => by
      have hlen := congrArg List.length he
      rw [List.length_append, List.length_cons] at hlen
      omega
    cases item with
    | array child =>
      have hfind' : findPointer (here ++ [0 + i]) (here ++ (0 + i) :: path) c = some s := by
        rw [Nat.zero_add]
        exact hfind
      have hchild : child[i]? = some c := hc
      have hsearch := findInArray_eq hchild hfind'
      rw [Nat.zero_add] at hsearch
      refine ⟨ascii '/' :: sprintfLu i ++ s, ?_, rfl, ?_⟩
      · rw [findPointer, if_neg hne, hsearch]
      · rw [getItemFromPointer_token (slash_notMem_sprintfLu i) hends (i := i) (c := c), hget]
        simp only [tokenItem, decodeArrayIndex_sprintfLu hfit hends, hchild, Option.bind_eq_bind,
          Option.bind_some]
    | object child =>
      obtain ⟨⟨name, c'⟩, hmember, rfl⟩ := Option.map_eq_some_iff.1 hc
      have hfind' : findPointer (here ++ [0 + i]) (here ++ (0 + i) :: path) c' = some s := by
        rw [Nat.zero_add]
        exact hfind
      have hsearch := findInObject_eq hmember hfind'
      rw [Nat.zero_add] at hsearch
      refine ⟨ascii '/' :: encodeStringAsPointer name.val ++ s, ?_, rfl, ?_⟩
      · rw [findPointer, if_neg hne, hsearch]
      · rw [getItemFromPointer_token (slash_notMem_encode name.val) hends (i := i) (c := c'), hget]
        exact tokenItem_object hmember
          (fun j m hj hm => hearlier child rfl j m (name, c') hj hm hmember) hends
    | null => cases hc
    | bool _ => cases hc
    | int _ => cases hc
    | number _ => cases hc
    | string _ => cases hc
    | raw _ => cases hc

/-- The pointer that is found for an item leads back to its place and to the item, and the bytes of
its tokens are as many as were counted for them. -/
theorem find_then_get {item node : Item ν} {path : List Nat} (hnode : descend item path = some node)
    (hway : Unshadowed caseSensitive item path) :
    (∃ pointer, findPointer [] path item = some pointer ∧
      getItemFromPointer caseSensitive [] item pointer = some (path, node)) ∧
    ∀ name : Bytes, (encodeStringAsPointer name).length = pointerEncodedLength name := by
  obtain ⟨s, hfind, -, hget⟩ := findPointer_get [] hnode hway
  exact ⟨⟨s, hfind, hget⟩, length_encodeStringAsPointer⟩

/-- An array under a name with a slash. -/
def slashed : Item Unit := .object [(Str.ofBytes (text "a/b"), .array [.null, .bool true])]

theorem find_then_get_slashed :
    ∃ pointer, findPointer [] [0, 1] slashed = some pointer ∧
      getItemFromPointer false [] slashed pointer = some ([0, 1], .bool true) := by
  have hway : Unshadowed false slashed [0, 1] := by
    refine ⟨by decide, fun child h j m m' hj => absurd hj (Nat.not_lt_zero j), fun c hc => ?_⟩
    cases hc
    refine ⟨by decide, fun child h => ?_, fun _ _ => trivial⟩
    cases h
  exact (find_then_get rfl hway).1

end Json
end CFunction
