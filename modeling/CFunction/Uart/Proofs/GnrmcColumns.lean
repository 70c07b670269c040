import CFunction.Uart.Proofs.Columns

/-!
# The columns of a GNRMC sentence

`parse_gnrmc` looks for the first `A,` and counts the commas from there. That is the status
column unless the time ends in an `A`; and without a fix any other `A,` will do.
-/

namespace CFunction
namespace Gps

open CString Fields

/-! ### The status -/

section Strstr

variable {a sep : UInt8} {f t : Bytes}

/-- A place that is not in front of `sep`. -/
theorem strstr_step {c d : UInt8} (hd : d ≠ sep) :
    strstr [a, sep] (c :: d :: t) = (strstr [a, sep] (d :: t)).map (· + 1) := by
  rw [strstr, if_neg]
  rw [List.isPrefixOf_iff_prefix, List.cons_prefix_cons, List.cons_prefix_cons]
  exact fun h => hd h.2.1.symm

/-- The separator behind a field that ends in `a`. -/
theorem strstr_hit (hf : sep ∉ f) (ha : a ≠ sep) (t : Bytes) :
    strstr [a, sep] (f ++ a :: sep :: t) = some f.length := by
  induction f with
  | nil => simp [strstr]
  | cons c f ih =>
    have ih := ih (fun h => hf (List.mem_cons_of_mem c h))
    cases f with
    | nil =>
      rw [List.nil_append] at ih
      rw [List.singleton_append, strstr_step ha, ih]
      rfl
    | cons d f =>
      have hd : d ≠ sep := fun h => hf (by simp [h])
      rw [List.cons_append] at ih
      rw [List.cons_append, List.cons_append, strstr_step hd, ih]
      rfl

/-- The separator behind another field. -/
theorem strstr_miss (hf : sep ∉ f) (ha : a ≠ sep) (hlast : f.getLast? ≠ some a) (t : Bytes) :
    strstr [a, sep] (f ++ sep :: t) = (strstr [a, sep] t).map (· + (f.length + 1)) := by
  induction f with
  | nil => exact strstr_cons_of_ne ha [sep] t
  | cons c f ih =>
    cases f with
    | nil =>
      have hc : a ≠ c := fun h => hlast (by rw [h]; rfl)
      rw [List.singleton_append, strstr_cons_of_ne hc, strstr_cons_of_ne ha, Option.map_map]
      rfl
    | cons d f =>
      have hd : d ≠ sep := fun h => hf (by simp [h])
      have ih := ih (fun h => hf (List.mem_cons_of_mem c h)) (by simpa using hlast)
      rw [List.cons_append] at ih
      rw [List.cons_append, List.cons_append, strstr_step hd, ih, Option.map_map]
      rfl

end Strstr

/-! ### An item and the comma behind it -/

section Item

variable {α : Type} {f t : Bytes}

theorem column_item (hf : comma ∉ f) (g : Bytes → Option α) :
    column (f ++ comma :: t) g =
      if f = [] then some none else (g (f ++ comma :: t)).map some := by
  cases f with
  | nil => simp [column]
  | cons c f =>
    have hc : c ≠ comma := fun h => hf (by simp [h])
    rw [List.cons_append, column, if_neg hc, if_neg (List.cons_ne_nil c f)]

theorem stringOf_item (hf : 0 ∉ f) (ht : 0 ∈ t) :
    ∃ u, stringOf (f ++ comma :: t) = some (f ++ comma :: u) := by
  obtain ⟨u, rest, rfl, hu⟩ := List.eq_append_cons_of_mem ht
  have hstring : 0 ∉ f ++ comma :: u := by
    rw [List.mem_append, List.mem_cons]
    rintro (h | h | h)
    · exact hf h
    · exact absurd h (by decide)
    · exact hu h
  refine ⟨u, ?_⟩
  have h := cstr_append_nul rest hstring
  rw [List.append_assoc, List.cons_append] at h
  rw [stringOf, if_pos (by simp), h]

theorem number_item (hf : comma ∉ f ∧ 0 ∉ f) (ht : 0 ∈ t) {convert : Bytes → α}
    (stops : ∀ u, convert (f ++ comma :: u) = convert f) :
    column (f ++ comma :: t) (fun t => (stringOf t).map convert) =
      some (if f = [] then none else some (convert f)) := by
  obtain ⟨u, hu⟩ := stringOf_item hf.2 ht
  rw [column_item hf.1, hu, Option.map_some, stops]
  split <;> rfl

theorem char_item (hf : comma ∉ f) :
    column (f ++ comma :: t) List.head? = some f.head? := by
  rw [column_item hf]
  cases f <;> rfl

theorem copy_item (hf : comma ∉ f ∧ 0 ∉ f) (ht : 0 ∈ t) (hlen : f = [] ∨ f.length = 6) :
    column (f ++ comma :: t)
        (fun t => (stringOf t).bind fun s => (CharArray.zero 16).copy s 6) =
      some (if f = [] then none else some ((CharArray.zero 16).strncpy f)) := by
  obtain ⟨u, hu⟩ := stringOf_item hf.2 ht
  rw [column_item hf.1, hu, Option.bind_some]
  cases hlen with
  | inl hempty => rw [if_pos hempty, if_pos hempty]
  | inr hsix =>
    have htake : (f ++ comma :: u).take 6 = f := List.take_left' hsix
    have hroom : 6 ≤ (f ++ comma :: u).length := by
      rw [List.length_append, hsix]
      exact Nat.le_add_right 6 _
    rw [CharArray.copy_zero (by decide) hroom, htake]
    split <;> rfl

end Item

/-! ### A body -/

/-- The body of a sentence, as a list of its items. -/
structure Body where
  items : List Bytes
  free : ∀ f ∈ items, comma ∉ f ∧ 0 ∉ f
  ten_le : 10 ≤ items.length
  /-- Item <1> fits into `date_day`. -/
  day_le : (items.getD 0 []).length ≤ 15
  year : items.getD 8 [] = [] ∨ (items.getD 8 []).length = 6

namespace Body

/-- Item <k>. -/
def item (body : Body) (k : Nat) : Bytes := body.items.getD (k - 1) []

def bytes (body : Body) : Bytes := join comma body.items

end Body

/-- `atof` reads no further than a comma. -/
def AtofStops (fl : FloatOps) : Prop :=
  ∀ f t, comma ∉ f → fl.atof (f ++ comma :: t) = fl.atof f

/-- The members taken from their own columns; an empty column leaves its member as it is. -/
def fromColumns (fl : FloatOps) (gps : GpsInfo) (body : Body) : GpsInfo :=
  let number (k : Nat) {w : Nat} (old : BitVec w) (convert : BitVec 64 → BitVec w) : BitVec w :=
    if body.item k = [] then old else convert (fl.atof (body.item k))
  let copied (k : Nat) (old : CharArray 16) : CharArray 16 :=
    if body.item k = [] then old else (CharArray.zero 16).strncpy (body.item k)
  { gps with
    dateDay := copied 1 gps.dateDay
    latitude := number 3 gps.latitude id
    positionSn := (body.item 4).headD gps.positionSn
    longitude := number 5 gps.longitude id
    positionEw := (body.item 6).headD gps.positionEw
    speed := number 7 gps.speed fun d => fl.narrow (fl.times185 d)
    direction := number 8 gps.direction fl.narrow
    dateYear := copied 9 gps.dateYear }

/-- `parse_gnrmc` takes the members from their own columns if the status is `A`, and leaves them
alone otherwise. -/
def TakesOwnColumns (body : Body) : Prop :=
  ∀ (fl : FloatOps) (gps : GpsInfo) (rest : Bytes), AtofStops fl →
    parseGnrmc fl gps (body.bytes ++ 0 :: rest) =
      some (if body.item 2 = text "A" then fromColumns fl gps body else gps)

/-- With the status `A` the time does not end in an `A`; with another status there is no `A,`
at all, or one in front of seven commas in a body without a time. -/
def StatusFound (body : Body) : Prop :=
  if body.item 2 = text "A" then (body.item 1).getLast? ≠ some (ascii 'A')
  else ∀ strx, strstr [ascii 'A', comma] body.bytes = some strx →
    body.item 1 = [] ∧ List.replicate 7 comma <+: body.bytes.drop (strx + 2)

theorem Body.exists_items (body : Body) : ∃ f₁ f₂ f₃ f₄ f₅ f₆ f₇ f₈ f₉ f₁₀ gs,
    body.items = f₁ :: f₂ :: f₃ :: f₄ :: f₅ :: f₆ :: f₇ :: f₈ :: f₉ :: f₁₀ :: gs := by
  have hlen := body.ten_le
  match body.items, hlen with
  | f₁ :: f₂ :: f₃ :: f₄ :: f₅ :: f₆ :: f₇ :: f₈ :: f₉ :: f₁₀ :: gs, _ =>
    exact ⟨f₁, f₂, f₃, f₄, f₅, f₆, f₇, f₈, f₉, f₁₀, gs, rfl⟩

theorem Body.free_item (body : Body) (k : Nat) : comma ∉ body.item k ∧ 0 ∉ body.item k := by
  rw [item, List.getD_eq_getElem?_getD]
  cases h : body.items[k - 1]? with
  | none => exact ⟨List.not_mem_nil, List.not_mem_nil⟩
  | some f => exact body.free f (List.mem_of_getElem? h)

theorem Body.item_one_le (body : Body) : (body.item 1).length ≤ 15 := body.day_le

theorem Body.zero_notMem (body : Body) : 0 ∉ body.bytes := by
  intro h
  rcases mem_join h with hcomma | ⟨f, hf, hzero⟩
  · exact absurd hcomma (by decide)
  · exact (body.free f hf).2 hzero

/-- The nine items in front of the rest. -/
theorem Body.exists_rest (body : Body) : ∃ b u,
    body.bytes = body.item 1 ++ comma :: (body.item 2 ++ comma :: b) ∧
    b = body.item 3 ++ comma :: (body.item 4 ++ comma :: (body.item 5 ++ comma ::
      (body.item 6 ++ comma :: (body.item 7 ++ comma :: (body.item 8 ++ comma ::
        (body.item 9 ++ comma :: u)))))) := by
  obtain ⟨f₁, f₂, f₃, f₄, f₅, f₆, f₇, f₈, f₉, f₁₀, gs, hitems⟩ := body.exists_items
  refine ⟨_, join comma (f₁₀ :: gs), ?_, rfl⟩
  simp only [bytes, item, hitems]
  rfl

/-- The run, in terms of the body. -/
theorem gnrmcUpdate_body (fl : FloatOps) (body : Body) (rest : Bytes) :
    gnrmcUpdate fl (body.bytes ++ 0 :: rest) =
      match strstr [ascii 'A', comma] body.bytes with
      | none => some .none
      | some strx =>
        (if body.item 1 = [] then some none
          else ((CharArray.zero 16).copy body.bytes (toSize ((strx : Int) - 1))).map some).bind
          fun dateDay => gnrmcColumns fl dateDay (body.bytes.drop (strx + 2) ++ 0 :: rest) := by
  have hstring : stringOf (body.bytes ++ 0 :: rest) = some body.bytes := by
    rw [stringOf, if_pos (by simp), cstr_append_nul rest body.zero_notMem]
  rw [gnrmcUpdate, hstring, Option.bind_eq_bind, Option.bind_some]
  cases hx : strstr [ascii 'A', comma] body.bytes with
  | none => rfl
  | some strx =>
    have hroom : strx + 2 ≤ body.bytes.length := strstr_room (List.cons_ne_nil _ _) hx
    obtain ⟨b, u, hbytes, -⟩ := body.exists_rest
    have hfirst : body.bytes ++ 0 :: rest =
        body.item 1 ++ comma :: (body.item 2 ++ comma :: b ++ 0 :: rest) := by
      rw [hbytes, List.append_assoc, List.cons_append]
    dsimp only
    rw [List.drop_append_of_le_length hroom, hfirst, column_item (body.free_item 1).1]
    rfl

/-! ### With a fix -/

theorem gnrmcColumns_items {fl : FloatOps} (stops : AtofStops fl) {f₃ f₄ f₅ f₆ f₇ f₈ f₉ t : Bytes}
    (free : ∀ f ∈ [f₃, f₄, f₅, f₆, f₇, f₈, f₉], comma ∉ f ∧ 0 ∉ f) (ht : 0 ∈ t)
    (hyear : f₉ = [] ∨ f₉.length = 6) (dateDay : Option (CharArray 16)) :
    gnrmcColumns fl dateDay (f₃ ++ comma :: (f₄ ++ comma :: (f₅ ++ comma :: (f₆ ++ comma ::
        (f₇ ++ comma :: (f₈ ++ comma :: (f₉ ++ comma :: t))))))) =
      some {
        dateDay := dateDay
        latitude := if f₃ = [] then none else some (fl.atof f₃)
        positionSn := f₄.head?
        longitude := if f₅ = [] then none else some (fl.atof f₅)
        positionEw := f₆.head?
        speed := if f₇ = [] then none else some (fl.narrow (fl.times185 (fl.atof f₇)))
        direction := if f₈ = [] then none else some (fl.narrow (fl.atof f₈))
        dateYear := if f₉ = [] then none else some ((CharArray.zero 16).strncpy f₉) } := by
  have h₃ := free f₃ (by simp)
  have h₄ := free f₄ (by simp)
  have h₅ := free f₅ (by simp)
  have h₆ := free f₆ (by simp)
  have h₇ := free f₇ (by simp)
  have h₈ := free f₈ (by simp)
  have h₉ := free f₉ (by simp)
  have hnum : ∀ {f : Bytes}, comma ∉ f → ∀ u, fl.atof (f ++ comma :: u) = fl.atof f :=
    fun hf u => stops _ u hf
  refine Option.bind_eq_some_iff.2 ⟨_, number_item h₃ (by simp [ht]) (hnum h₃.1), ?_⟩
  refine Option.bind_eq_some_iff.2 ⟨_, after_append h₃.1 _, ?_⟩
  refine Option.bind_eq_some_iff.2 ⟨_, char_item h₄.1, ?_⟩
  refine Option.bind_eq_some_iff.2 ⟨_, after_append h₄.1 _, ?_⟩
  refine Option.bind_eq_some_iff.2 ⟨_, number_item h₅ (by simp [ht]) (hnum h₅.1), ?_⟩
  refine Option.bind_eq_some_iff.2 ⟨_, after_append h₅.1 _, ?_⟩
  refine Option.bind_eq_some_iff.2 ⟨_, char_item h₆.1, ?_⟩
  refine Option.bind_eq_some_iff.2 ⟨_, after_append h₆.1 _, ?_⟩
  refine Option.bind_eq_some_iff.2
    ⟨_, number_item h₇ (by simp [ht]) (fun u => by rw [hnum h₇.1]), ?_⟩
  refine Option.bind_eq_some_iff.2 ⟨_, after_append h₇.1 _, ?_⟩
  refine Option.bind_eq_some_iff.2
    ⟨_, number_item h₈ (by simp [ht]) (fun u => by rw [hnum h₈.1]), ?_⟩
  refine Option.bind_eq_some_iff.2 ⟨_, after_append h₈.1 _, ?_⟩
  exact Option.bind_eq_some_iff.2 ⟨_, copy_item h₉ ht hyear, rfl⟩

theorem getD_ite {α : Type} {c : Prop} [Decidable c] {x y : α} :
    (if c then none else some x).getD y = if c then y else x := by split <;> rfl

theorem parseGnrmc_fix {fl : FloatOps} (stops : AtofStops fl) {body : Body}
    (hfix : body.item 2 = text "A") (hlast : (body.item 1).getLast? ≠ some (ascii 'A'))
    (gps : GpsInfo) (rest : Bytes) :
    parseGnrmc fl gps (body.bytes ++ 0 :: rest) = some (fromColumns fl gps body) := by
  obtain ⟨b, u, hbytes, hb⟩ := body.exists_rest
  have htext : text "A" = [ascii 'A'] := by decide
  rw [hfix, htext] at hbytes
  have hstrx : strstr [ascii 'A', comma] body.bytes = some ((body.item 1).length + 1) := by
    rw [hbytes, strstr_miss (body.free_item 1).1 (by decide) hlast]
    have hhit : strstr [ascii 'A', comma] ([] ++ ascii 'A' :: comma :: b) = some 0 :=
      strstr_hit List.not_mem_nil (by decide) b
    exact (congrArg (Option.map _) hhit).trans (by simp)
  have hcount : toSize (((body.item 1).length + 1 : Nat) - 1) = (body.item 1).length := by
    have hnat : (((body.item 1).length + 1 : Nat) : Int) - 1 = (body.item 1).length := by omega
    rw [hnat, toSize_nat (Nat.le_trans body.item_one_le (by decide))]
  have hcopy : (CharArray.zero 16).copy body.bytes (body.item 1).length =
      some ((CharArray.zero 16).strncpy (body.item 1)) := by
    have htake : body.bytes.take (body.item 1).length = body.item 1 := by
      rw [hbytes]
      exact List.take_left
    have hroom : (body.item 1).length ≤ body.bytes.length := by
      rw [hbytes, List.length_append]
      exact Nat.le_add_right _ _
    have hday : (body.item 1).length ≤ 16 := Nat.le_succ_of_le body.item_one_le
    rw [CharArray.copy_zero hday hroom, htake]
  have hdrop : body.bytes.drop ((body.item 1).length + 1 + 2) = b := by
    have hsplit : body.bytes = (body.item 1 ++ [comma, ascii 'A', comma]) ++ b := by
      rw [hbytes]
      simp
    rw [hsplit]
    exact List.drop_left' (by simp)
  have hrest : b ++ 0 :: rest = body.item 3 ++ comma :: (body.item 4 ++ comma ::
      (body.item 5 ++ comma :: (body.item 6 ++ comma :: (body.item 7 ++ comma ::
        (body.item 8 ++ comma :: (body.item 9 ++ comma :: (u ++ 0 :: rest))))))) := by
    rw [hb]
    simp only [List.append_assoc, List.cons_append]
  have hday : (if body.item 1 = [] then some none
      else (some ((CharArray.zero 16).strncpy (body.item 1))).map some) =
      some (if body.item 1 = [] then none
        else some ((CharArray.zero 16).strncpy (body.item 1))) := by
    split <;> rfl
  have free : ∀ f ∈ [body.item 3, body.item 4, body.item 5, body.item 6, body.item 7, body.item 8,
      body.item 9], comma ∉ f ∧ 0 ∉ f := by
    simp [body.free_item]
  rw [parseGnrmc_eq, gnrmcUpdate_body, hstrx]
  dsimp only
  rw [hcount, hcopy, hdrop, hday, Option.bind_some, hrest,
    gnrmcColumns_items stops free (by simp) body.year, Option.map_some, GnrmcUpdate.apply,
    fromColumns]
  simp only [getD_ite, List.headD_eq_head?_getD, id]

theorem column_eq_none {α : Type} {t : Bytes} {g : Bytes → Option α}
    (h : column t g = some none) : ∃ t', t = comma :: t' := by
  cases t with
  | nil => exact absurd h (by simp [column])
  | cons c t =>
    rw [column] at h
    by_cases hc : c = comma
    · exact ⟨t, by rw [hc]⟩
    · rw [if_neg hc, Option.map_eq_some_iff] at h
      obtain ⟨v, -, hv⟩ := h
      exact absurd hv (by simp)

theorem column_eq_none_after {α : Type} {t t' : Bytes} {g : Bytes → Option α}
    (h : column t g = some none) (ht : after comma t = some t') : t = comma :: t' := by
  obtain ⟨u, rfl⟩ := column_eq_none h
  rw [after, if_pos rfl] at ht
  rw [Option.some.inj ht]

/-- Nothing but the copy in front of the `A,` sets `date_day`; and a run that sets nothing met
empty columns only. -/
theorem gnrmcColumns_eq_some {fl : FloatOps} {dateDay : Option (CharArray 16)} {t₃ : Bytes}
    {u : GnrmcUpdate} (h : gnrmcColumns fl dateDay t₃ = some u) :
    u.dateDay = dateDay ∧ (u = .none → List.replicate 7 comma <+: t₃) := by
  obtain ⟨v₃, h₃, h⟩ := Option.bind_eq_some_iff.1 h
  obtain ⟨t₄, ht₄, h⟩ := Option.bind_eq_some_iff.1 h
  obtain ⟨v₄, h₄, h⟩ := Option.bind_eq_some_iff.1 h
  obtain ⟨t₅, ht₅, h⟩ := Option.bind_eq_some_iff.1 h
  obtain ⟨v₅, h₅, h⟩ := Option.bind_eq_some_iff.1 h
  obtain ⟨t₆, ht₆, h⟩ := Option.bind_eq_some_iff.1 h
  obtain ⟨v₆, h₆, h⟩ := Option.bind_eq_some_iff.1 h
  obtain ⟨t₇, ht₇, h⟩ := Option.bind_eq_some_iff.1 h
  obtain ⟨v₇, h₇, h⟩ := Option.bind_eq_some_iff.1 h
  obtain ⟨t₈, ht₈, h⟩ := Option.bind_eq_some_iff.1 h
  obtain ⟨v₈, h₈, h⟩ := Option.bind_eq_some_iff.1 h
  obtain ⟨t₉, ht₉, h⟩ := Option.bind_eq_some_iff.1 h
  obtain ⟨v₉, h₉, h⟩ := Option.bind_eq_some_iff.1 h
  obtain rfl := Option.some.inj h
  refine ⟨rfl, fun hu => ?_⟩
  injection hu with hday e₃ e₄ e₅ e₆ e₇ e₈ e₉
  subst e₃ e₄ e₅ e₆ e₇ e₈ e₉
  obtain ⟨v, h₁₀⟩ := column_eq_none h₉
  rw [column_eq_none_after h₃ ht₄, column_eq_none_after h₄ ht₅, column_eq_none_after h₅ ht₆,
    column_eq_none_after h₆ ht₇, column_eq_none_after h₇ ht₈, column_eq_none_after h₈ ht₉, h₁₀]
  exact List.prefix_append (List.replicate 7 comma) v

/-- The copy in front of a time's own `A`: one byte less than what is in front of it, and with
nothing in front of it the count is `(size_t)-1`. -/
theorem copy_in_front {s g : Bytes} {a : CharArray 16} (hs : 0 ∉ s) (hg : g.length ≤ 14)
    (hroom : g.length ≤ s.length)
    (hcopy : (CharArray.zero 16).copy s (toSize ((g.length : Int) - 1)) = some a) :
    ∃ t, a = (CharArray.zero 16).strncpy t ∧ 0 ∉ t ∧ t.length < g.length := by
  cases g with
  | nil =>
    have hnone : (CharArray.zero 16).copy s (toSize (((0 : Nat) : Int) - 1)) = none := by
      rw [CharArray.copy, dif_neg (by decide)]
    rw [List.length_nil, hnone] at hcopy
    exact absurd hcopy (by simp)
  | cons c g =>
    rw [List.length_cons] at hg hroom
    have hcount : toSize (((c :: g).length : Int) - 1) = g.length := by
      have hnat : ((c :: g).length : Int) - 1 = g.length := by
        rw [List.length_cons]
        omega
      rw [hnat, toSize_nat (by omega)]
    rw [hcount, CharArray.copy_zero (by omega) (by omega)] at hcopy
    refine ⟨s.take g.length, (Option.some.inj hcopy).symm, fun h => hs (List.mem_of_mem_take h), ?_⟩
    rw [List.length_take, List.length_cons]
    omega

/-- A time that ends in an `A` is taken for the status, and two bytes of it are cut off. -/
theorem not_takesOwnColumns_fix {body : Body} (hfix : body.item 2 = text "A")
    (hlast : (body.item 1).getLast? = some (ascii 'A')) : ¬ TakesOwnColumns body := by
  obtain ⟨g, hg⟩ := List.getLast?_eq_some_iff.1 hlast
  obtain ⟨b, u, hbytes, -⟩ := body.exists_rest
  have hfree := body.free_item 1
  have hle := body.item_one_le
  have hlen : (body.item 1).length = g.length + 1 := by rw [hg, List.length_append]; rfl
  have hgfree : comma ∉ g := fun h => hfree.1 (hg ▸ List.mem_append_left _ h)
  have hbytes' : body.bytes = g ++ ascii 'A' :: comma :: (body.item 2 ++ comma :: b) := by
    rw [hbytes, hg]
    simp
  have hA : ascii 'A' ≠ comma := by decide
  have hstrx := strstr_hit hgfree hA (body.item 2 ++ comma :: b)
  rw [← hbytes'] at hstrx
  have hne : body.item 1 ≠ [] := by
    rw [hg]
    exact List.append_ne_nil_of_right_ne_nil g (List.cons_ne_nil _ _)
  intro h
  have hrun := h default GpsInfo.zero [] (fun _ _ _ => rfl)
  rw [if_pos hfix, parseGnrmc_eq, gnrmcUpdate_body, hstrx] at hrun
  dsimp only at hrun
  rw [if_neg hne, Option.map_eq_some_iff] at hrun
  obtain ⟨update, hupdate, happly⟩ := hrun
  obtain ⟨dateDay, hday, hcolumns⟩ := Option.bind_eq_some_iff.1 hupdate
  obtain ⟨a, hcopy, rfl⟩ := Option.map_eq_some_iff.1 hday
  have hsame : a = (CharArray.zero 16).strncpy (body.item 1) := by
    have hmember : update.dateDay.getD GpsInfo.zero.dateDay = if body.item 1 = [] then _ else _ :=
      congrArg GpsInfo.dateDay happly
    rwa [(gnrmcColumns_eq_some hcolumns).1, if_neg hne] at hmember
  have hroom : g.length ≤ body.bytes.length := by
    rw [hbytes', List.length_append]
    exact Nat.le_add_right _ _
  obtain ⟨t, rfl, hzero, hshort⟩ := copy_in_front body.zero_notMem (by omega) hroom hcopy
  have ht := CharArray.strncpy_injective ⟨hzero, by omega⟩ ⟨hfree.2, by omega⟩ hsame
  rw [ht, hlen] at hshort
  omega

/-! ### Without a fix -/

/-- Eight members other than those of `GpsInfo.zero`. -/
def GpsInfo.other : GpsInfo :=
  { GpsInfo.zero with
    latitude := 1
    longitude := 1
    speed := 1
    direction := 1
    positionSn := 1
    positionEw := 1
    dateDay := (CharArray.zero 16).strncpy [1]
    dateYear := (CharArray.zero 16).strncpy [1] }

theorem eq_none_of_getD {α : Type} {o : Option α} {a b : α} (hab : a ≠ b) (ha : o.getD a = a)
    (hb : o.getD b = b) : o = none := by
  cases o with
  | none => rfl
  | some v => exact absurd (ha.symm.trans hb) hab

/-- A run leaves every `mgps` alone only if it sets nothing. -/
theorem apply_eq_self {u : GnrmcUpdate} (h : ∀ gps, u.apply gps = gps) : u = .none := by
  have hz := h GpsInfo.zero
  have ho := h GpsInfo.other
  have hone : (1 : BitVec 64) ≠ 0 := by decide
  have hfloat : (1 : BitVec 32) ≠ 0 := by decide
  have hchar : (1 : UInt8) ≠ 0 := by decide
  have harray : (CharArray.zero 16).strncpy [1] ≠ CharArray.zero 16 := by decide
  cases u
  rw [GnrmcUpdate.none, GnrmcUpdate.mk.injEq]
  exact ⟨eq_none_of_getD harray (congrArg GpsInfo.dateDay ho) (congrArg GpsInfo.dateDay hz),
    eq_none_of_getD hone (congrArg GpsInfo.latitude ho) (congrArg GpsInfo.latitude hz),
    eq_none_of_getD hchar (congrArg GpsInfo.positionSn ho) (congrArg GpsInfo.positionSn hz),
    eq_none_of_getD hone (congrArg GpsInfo.longitude ho) (congrArg GpsInfo.longitude hz),
    eq_none_of_getD hchar (congrArg GpsInfo.positionEw ho) (congrArg GpsInfo.positionEw hz),
    eq_none_of_getD hfloat (congrArg GpsInfo.speed ho) (congrArg GpsInfo.speed hz),
    eq_none_of_getD hfloat (congrArg GpsInfo.direction ho) (congrArg GpsInfo.direction hz),
    eq_none_of_getD harray (congrArg GpsInfo.dateYear ho) (congrArg GpsInfo.dateYear hz)⟩

theorem replicate_prefix_nul {n : Nat} {x rest : Bytes} :
    List.replicate n comma <+: x ++ 0 :: rest ↔ List.replicate n comma <+: x := by
  constructor
  · intro h
    rcases prefix_append_cases h with hx | ⟨v, hv, hrest⟩
    · exact hx
    · cases v with
      | nil => exact ⟨[], by rw [List.append_nil, hv, List.append_nil]⟩
      | cons c v =>
        -- the NUL would be one of the commas
        have hc : c ∈ List.replicate n comma := hv ▸ List.mem_append_right x List.mem_cons_self
        rw [(List.cons_prefix_cons.1 hrest).1] at hc
        exact absurd (List.eq_of_mem_replicate hc) (by decide)
  · exact fun h => h.trans (List.prefix_append x _)

theorem gnrmcColumns_empty (fl : FloatOps) {t : Bytes} (h : List.replicate 7 comma <+: t) :
    gnrmcColumns fl none t = some .none := by
  obtain ⟨v, rfl⟩ := h
  rfl

theorem takesOwnColumns_void {body : Body} (hvoid : body.item 2 ≠ text "A") :
    TakesOwnColumns body ↔ ∀ strx, strstr [ascii 'A', comma] body.bytes = some strx →
      body.item 1 = [] ∧ List.replicate 7 comma <+: body.bytes.drop (strx + 2) := by
  constructor
  · intro h strx hx
    have hrun : ∀ gps, (gnrmcUpdate default (body.bytes ++ 0 :: [])).map (GnrmcUpdate.apply gps) =
        some gps := by
      intro gps
      have hgps := h default gps [] (fun _ _ _ => rfl)
      rwa [if_neg hvoid, parseGnrmc_eq] at hgps
    obtain ⟨u, hu, -⟩ := Option.map_eq_some_iff.1 (hrun GpsInfo.zero)
    rw [hu] at hrun
    obtain rfl := apply_eq_self fun gps => Option.some.inj (hrun gps)
    rw [gnrmcUpdate_body, hx] at hu
    obtain ⟨dateDay, hday, hcolumns⟩ := Option.bind_eq_some_iff.1 hu
    obtain ⟨hnone, hempty⟩ := gnrmcColumns_eq_some hcolumns
    obtain rfl : none = dateDay := hnone
    refine ⟨?_, replicate_prefix_nul.1 (hempty rfl)⟩
    by_contra hne
    rw [if_neg hne, Option.map_eq_some_iff] at hday
    obtain ⟨a, -, ha⟩ := hday
    exact absurd ha (by simp)
  · intro h fl gps rest _
    rw [if_neg hvoid, parseGnrmc_eq, gnrmcUpdate_body]
    cases hx : strstr [ascii 'A', comma] body.bytes with
    | none => rfl
    | some strx =>
      obtain ⟨hempty, hcommas⟩ := h strx hx
      dsimp only
      rw [if_pos hempty, Option.bind_some, gnrmcColumns_empty fl (replicate_prefix_nul.2 hcommas)]
      rfl

/-! ### All bodies -/

/-- The items of a body go to their own members, and only with a fix, exactly when the first `A,`
is the status of a fix or sets nothing. -/
theorem takesOwnColumns_iff (body : Body) : TakesOwnColumns body ↔ StatusFound body := by
  rw [StatusFound]
  by_cases hfix : body.item 2 = text "A"
  · rw [if_pos hfix]
    constructor
    · exact fun h hlast => not_takesOwnColumns_fix hfix hlast h
    · intro hlast fl gps rest stops
      rw [if_pos hfix]
      exact parseGnrmc_fix stops hfix hlast gps rest
  · rw [if_neg hfix]
    exact takesOwnColumns_void hfix

/-- A sentence without a fix that names its mode, `A`, in front of the last item. -/
def voidFix : Body where
  items := [text "092927.000", text "V", text "2235.9058", text "N", text "11400.0518", text "E",
    text "0.000", text "74.11", text "151216", [], text "A", text "V"]
  free := by decide
  ten_le := by decide
  day_le := by decide
  year := by decide

/-- The mode is taken for the status: 57 bytes go to `date_day`, which has 16. -/
theorem not_takesOwnColumns : ¬ TakesOwnColumns voidFix := by
  intro h
  have hvoid : voidFix.item 2 ≠ text "A" := by decide
  have hx : strstr [ascii 'A', comma] voidFix.bytes = some 58 := by decide
  exact absurd ((takesOwnColumns_void hvoid).1 h 58 hx).1 (by decide)

end Gps
end CFunction
