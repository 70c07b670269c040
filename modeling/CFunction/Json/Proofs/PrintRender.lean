import CFunction.Json.Proofs.PrintBuffer

/-!
# The printer writes the text of the item

Whatever the memory is and whichever allocation fails, the printer writes inside its buffer and
either fails or leaves the text of the item. It does not fail when there is room for three bytes
more than the text.
-/

namespace CFunction
namespace Json

open CString

variable {ν : Type} {D : Doubles ν} {hooks : Hooks} {p : PrintBuffer} {done : Bytes}

/-- What is known about the `sprintf` of a `double`: the text of a finite one is a literal. -/
structure Doubles.Sprintf (D : Doubles ν) : Prop where
  length : ∀ precision d, D.isnan d = false → D.isinf d = false →
    (D.sprintf precision d).length < 25
  literal : ∀ precision d, D.isnan d = false → D.isinf d = false →
    0 < strtodLength (D.sprintf precision d) ∧
      strtodLength (D.sprintf precision d) = (D.sprintf precision d).length
  chars : ∀ precision d, D.isnan d = false → D.isinf d = false →
    ∀ c ∈ D.sprintf precision d, isNumberChar c = true
  leading : ∀ precision d, D.isnan d = false → D.isinf d = false →
    ∃ c s, D.sprintf precision d = c :: s ∧ (c = ascii '-' ∨ isDigit c = true)

/-! ### The text holds no NUL -/

theorem zero_notMem_escape {c : UInt8} (h : c ≠ 0) : (0 : UInt8) ∉ (escape c).1 := by
  have hdigit : ∀ d : Fin 16, hexDigit d ≠ 0 := by decide
  rcases escapeKind c with ⟨-, heq⟩ | ⟨-, e, he, heq⟩ | ⟨-, hcontrol, heq⟩
  · rw [heq]
    simpa using h.symm
  · have hne : shortEscapes.all (fun m => m.1 != 0) = true := rfl
    rw [heq, List.mem_pair, not_or]
    exact ⟨by decide, (bne_iff_ne.1 (List.all_eq_true.1 hne _ he)).symm⟩
  · have hhigh := hdigit ⟨c.toNat / 16, by omega⟩
    have hlow := hdigit ⟨c.toNat % 16, by omega⟩
    rw [heq]
    simp [text, ascii, hhigh.symm, hlow.symm]

theorem zero_notMem_renderString {s : Bytes} (h : 0 ∉ s) : (0 : UInt8) ∉ renderString s := by
  rw [renderString_eq]
  simp only [List.mem_append, List.mem_cons, List.not_mem_nil, or_false, not_or]
  refine ⟨⟨by decide, fun hmem => ?_⟩, by decide⟩
  obtain ⟨c, hc, hzero⟩ := List.mem_flatMap.1 hmem
  exact zero_notMem_escape (fun he => h (he ▸ hc)) hzero

theorem lld_digits (n : Int64) :
    ∃ ds : Bytes, ds ≠ [] ∧ (∀ c ∈ ds, isDigit c = true) ∧
      sprintfLld n = (if n.toInt < 0 then [ascii '-'] else []) ++ ds ∧
      Numeral.readDigits 10 ds = some n.toInt.natAbs := by
  have hlt : ∀ d ∈ Numeral.digitsOf 10 n.toInt.natAbs, d < 10 := fun d hd =>
    Numeral.lt_of_mem_digitsOf (by omega) hd
  have hne := Numeral.digitsOf_ne_nil (show 1 < 10 by omega) n.toInt.natAbs
  refine ⟨(Numeral.digitsOf 10 n.toInt.natAbs).reverse.map Numeral.digitChar, ?_, ?_, ?_, ?_⟩
  · simpa using hne
  · intro c hc
    obtain ⟨d, hd, rfl⟩ := List.mem_map.1 hc
    have hall : ∀ d : Fin 10, isDigit (Numeral.digitChar d) = true := by decide
    exact hall ⟨d, hlt d (List.mem_reverse.1 hd)⟩
  · unfold sprintfLld
    split <;> rfl
  · rw [Numeral.readDigits_digits (by omega) hne hlt, Numeral.ofDigits_digitsOf]

theorem zero_notMem_of_number {s : Bytes} (h : ∀ c ∈ s, isNumberChar c = true) :
    (0 : UInt8) ∉ s := fun hmem => by
  have hzero : isNumberChar 0 = false := by decide
  rw [h 0 hmem] at hzero
  cases hzero

theorem isNumberChar_of_isDigit {c : UInt8} (h : isDigit c = true) : isNumberChar c = true := by
  rw [isNumberChar, h, Bool.true_or]

theorem isNumberChar_lld (n : Int64) : ∀ c ∈ sprintfLld n, isNumberChar c = true := by
  obtain ⟨ds, -, hdigits, heq, -⟩ := lld_digits n
  have hminus : isNumberChar (ascii '-') = true := by decide
  intro c hc
  rw [heq, List.mem_append] at hc
  rcases hc with hsign | hds
  · split at hsign
    · rw [List.mem_singleton.1 hsign]
      exact hminus
    · cases hsign
  · exact isNumberChar_of_isDigit (hdigits c hds)

/-- A `double` prints as `null` or as the text of one of its two precisions. -/
theorem sprintfDouble_cases (D : Doubles ν) (d : ν) :
    (D.isnan d || D.isinf d) = true ∧ sprintfDouble D d = text "null" ∨
      (D.isnan d = false ∧ D.isinf d = false) ∧
        ∃ precision, sprintfDouble D d = D.sprintf precision d := by
  unfold sprintfDouble sprintfFirst
  cases hbad : D.isnan d || D.isinf d with
  | true => exact Or.inl ⟨rfl, rfl⟩
  | false =>
    refine Or.inr ⟨Bool.or_eq_false_iff.1 hbad, ?_⟩
    simp only [Bool.false_eq_true, ↓reduceIte]
    split
    · exact ⟨17, rfl⟩
    · split
      · exact ⟨15, rfl⟩
      · exact ⟨17, rfl⟩

theorem zero_notMem_sprintfDouble (hD : D.Sprintf) (d : ν) : (0 : UInt8) ∉ sprintfDouble D d := by
  rcases sprintfDouble_cases D d with ⟨-, heq⟩ | ⟨⟨hnan, hinf⟩, precision, heq⟩
  · rw [heq]
    decide
  · rw [heq]
    exact zero_notMem_of_number (hD.chars precision d hnan hinf)

theorem zero_notMem_formatted {format : Bool} {s : Bytes} (h : 0 ∉ s) :
    (0 : UInt8) ∉ formatted format s := by
  cases format with
  | true => exact h
  | false => exact List.not_mem_nil

theorem zero_notMem_tabs (depth : Nat) : (0 : UInt8) ∉ tabs depth := fun h => by
  have := List.eq_of_mem_replicate h
  simp [ascii] at this

theorem zero_notMem_renderElements {format : Bool} {depth : Nat} {child : List (Item ν)}
    (h : ∀ item ∈ child, 0 ∉ render D format depth item) :
    (0 : UInt8) ∉ renderElements D format depth child := by
  induction child with
  | nil => exact List.not_mem_nil
  | cons item rest ih =>
    have hitem := h item List.mem_cons_self
    have hrest := ih fun i hi => h i (List.mem_cons_of_mem item hi)
    have hblank : (0 : UInt8) ∉ formatted format [ascii ' '] := zero_notMem_formatted (by decide)
    rw [renderElements]
    simp only [List.mem_append, not_or]
    refine ⟨⟨hitem, ?_⟩, hrest⟩
    split
    · exact List.not_mem_nil
    · rw [List.mem_cons, not_or]
      exact ⟨by decide, hblank⟩

theorem zero_notMem_renderMembers {format : Bool} {depth : Nat} {child : List (Str × Item ν)}
    (h : ∀ member ∈ child, 0 ∉ render D format depth member.2) :
    (0 : UInt8) ∉ renderMembers D format depth child := by
  induction child with
  | nil => exact List.not_mem_nil
  | cons member rest ih =>
    obtain ⟨name, item⟩ := member
    have hitem := h (name, item) List.mem_cons_self
    have hrest := ih fun i hi => h i (List.mem_cons_of_mem _ hi)
    have hname := zero_notMem_renderString name.property
    have htabs : (0 : UInt8) ∉ formatted format (tabs depth) :=
      zero_notMem_formatted (zero_notMem_tabs depth)
    rw [renderMembers]
    simp only [List.mem_append, List.mem_cons, not_or]
    refine ⟨⟨⟨⟨⟨⟨htabs, hname⟩, by decide, ?_⟩, hitem⟩, ?_⟩, ?_⟩, hrest⟩
    · exact zero_notMem_formatted (by decide)
    · split
      · exact List.not_mem_nil
      · decide
    · exact zero_notMem_formatted (by decide)

theorem zero_notMem_render (hD : D.Sprintf) (format : Bool) (item : Item ν) (depth : Nat) :
    (0 : UInt8) ∉ render D format depth item := by
  induction item using Item.ind generalizing depth with
  | null => exact (by decide : (0 : UInt8) ∉ text "null")
  | bool b =>
    rw [render]
    split <;> decide
  | int n => exact zero_notMem_of_number (isNumberChar_lld n)
  | number d => exact zero_notMem_sprintfDouble hD d
  | string s => exact zero_notMem_renderString s.property
  | raw s => exact s.property
  | array child ih =>
    have helements := zero_notMem_renderElements fun item hi => ih item hi (depth + 1)
    rw [render]
    simp only [List.mem_append, List.mem_cons, List.not_mem_nil, or_false, not_or]
    exact ⟨⟨by decide, helements⟩, by decide⟩
  | object child ih =>
    have hmembers := zero_notMem_renderMembers fun member hm => ih member hm (depth + 1)
    rw [render]
    simp only [List.mem_append, List.mem_cons, List.not_mem_nil, or_false, not_or]
    refine ⟨⟨⟨⟨by decide, ?_⟩, hmembers⟩, ?_⟩, by decide⟩
    · exact zero_notMem_formatted (by decide)
    · exact zero_notMem_formatted (zero_notMem_tabs depth)

/-! ### One value -/

/-- What printing an item does from every place of a buffer. -/
def Prints (D : Doubles ν) (hooks : Hooks) (item : Item ν) : Prop :=
  ∀ p done format depth, At hooks p done → p.format = format → p.depth = depth →
    Gives hooks p (done.length + (render D format depth item).length + 3)
      (printValue D hooks p item) fun p' =>
        p'.depth = depth ∧ Written p' done (render D format depth item)

/-- A text with its NUL, when enough was asked for. -/
theorem putText_gives (hat : At hooks p done) {s : Bytes} {needed : Nat}
    (hneeded : s.length + 1 ≤ needed) :
    Gives hooks p (done.length + needed + 1)
      (ensure hooks p needed >>= fun q => put q 0 (s ++ [0])) fun p' =>
        p'.depth = p.depth ∧ Written p' done s := by
  refine (ensure_gives hat needed).bind fun q _ hq => ?_
  obtain ⟨hdepth, hat', hlen⟩ := hq
  have hroom : done.length + (s ++ [0]).length ≤ q.buffer.length := by
    rw [List.length_append, List.length_singleton]
    omega
  obtain ⟨buffer, hput, hsame, hwritten⟩ := put_at hat' hroom
  have hoffset := hat'.offset
  refine Gives.of_ok hput ⟨rfl, rfl, Or.inl hsame⟩ ⟨hdepth, ?_, ?_, ?_⟩
  · exact Nat.le_of_eq hoffset.symm
  · rw [List.length_append]
    dsimp only
    omega
  · rwa [List.append_assoc]

/-- Text written at the output, and the offset moved over it but not over what stands behind. -/
theorem putOver_at (hat : At hooks p done) (s tail : Bytes) {n : Nat} (hn : s.length = n)
    (hroom : done.length + n + tail.length ≤ p.buffer.length)
    (hlt : done.length + n < p.buffer.length) :
    ∃ buffer, put p 0 (s ++ tail) = .ok { p with buffer := buffer } ∧
      (∀ offset depth, Frame p { p with buffer := buffer, offset := offset, depth := depth }) ∧
      ∀ depth,
        At hooks { p with buffer := buffer, offset := p.offset + n, depth := depth }
          (done ++ s) := by
  subst hn
  have hfit : done.length + (s ++ tail).length ≤ p.buffer.length := by
    rw [List.length_append]
    omega
  obtain ⟨buffer, hput, hsame, hwritten⟩ := put_at hat hfit
  have hpre : done ++ s <+: buffer := by
    rw [← List.append_assoc] at hwritten
    exact (List.prefix_append _ _).trans hwritten
  refine ⟨buffer, hput, fun _ _ => ⟨rfl, rfl, Or.inl hsame⟩, fun depth => ?_⟩
  refine ⟨?_, hpre, Or.inl ?_⟩
  · rw [List.length_append, hat.offset]
  · have hoffset := hat.offset
    dsimp only
    omega

/-- The offset behind a value that has been printed. -/
theorem updateOffset_gives {s : Bytes} {n depth : Nat} (hs : 0 ∉ s)
    (h : p.depth = depth ∧ Written p done s) :
    Gives hooks p n (updateOffset p) fun p' => p'.depth = depth ∧ At hooks p' (done ++ s) := by
  obtain ⟨heq, hat⟩ := @updateOffset_eq hooks p done s h.2 hs
  exact Gives.of_ok heq ⟨rfl, rfl, Or.inl rfl⟩ ⟨h.1, hat⟩

/-- A comma, and the blank of the formatted text. -/
theorem length_comma (format : Bool) :
    (ascii ',' :: formatted format [ascii ' ']).length = if format then 2 else 1 := by
  cases format <;> rfl

/-- A list of elements, from the elements. -/
theorem printElements_gives (hD : D.Sprintf) {child : List (Item ν)} {format : Bool} {depth : Nat}
    (ih : ∀ item ∈ child, Prints D hooks item) (hat : At hooks p done) (hformat : p.format = format)
    (hdepth : p.depth = depth) :
    Gives hooks p (done.length + (renderElements D format depth child).length + 3)
      (printElements D hooks p child) fun p' =>
        p'.depth = depth ∧ At hooks p' (done ++ renderElements D format depth child) := by
  induction child generalizing p done with
  | nil =>
    refine Gives.of_ok rfl (Frame.refl p) ⟨hdepth, ?_⟩
    rwa [renderElements, List.append_nil]
  | cons item rest ihrest =>
    have hvalue := ih item List.mem_cons_self p done format depth hat hformat hdepth
    have hnul := zero_notMem_render hD format item depth
    have hlen : (renderElements D format depth (item :: rest)).length =
        (render D format depth item).length +
          (if rest.isEmpty then 0 else if format then 2 else 1) +
          (renderElements D format depth rest).length := by
      rw [renderElements, List.length_append, List.length_append]
      split
      · rfl
      · rw [length_comma]
    rw [printElements, hlen]
    refine (hvalue.more (by omega)).bind fun q hq hprinted => ?_
    refine (updateOffset_gives hnul hprinted).bind fun q' hq' hbehind => ?_
    obtain ⟨hdepth', hat'⟩ := hbehind
    have hformat' : q'.format = format := hq'.format.trans (hq.format.trans hformat)
    cases rest with
    | nil =>
      refine Gives.of_ok rfl (Frame.refl q') ⟨hdepth', ?_⟩
      simpa [renderElements] using hat'
    | cons next rest =>
      have hwidth : 1 ≤ if format then 2 else 1 := by split <;> omega
      simp only [List.isEmpty_cons, Bool.false_eq_true, ↓reduceIte, hformat']
      generalize hn : (if format then 2 else 1) = n at hwidth ⊢
      refine ((ensure_gives hat' (n + 1)).more ?_).bind fun r hr hroom => ?_
      · rw [List.length_append]
        omega
      obtain ⟨hdepth'', hat'', hlong⟩ := hroom
      have hformat'' : r.format = format := hr.format.trans hformat'
      obtain ⟨buffer, hput, hf, hat3⟩ := putOver_at hat''
        (ascii ',' :: formatted format [ascii ' ']) [0] ((length_comma format).trans hn)
        (by rw [List.length_singleton]; omega) (by omega)
      have hgoal := ihrest (fun i hi => ih i (List.mem_cons_of_mem item hi)) (hat3 r.depth)
        hformat'' (hdepth''.trans hdepth')
      rw [formatted, ← hformat''] at hput
      simp only [hput, bind, Except.bind]
      refine ((hgoal.more ?_).frame (hf _ _)).imp fun p' _ h => ⟨h.1, ?_⟩
      · simp only [List.length_append, length_comma, hn]
        omega
      · rw [renderElements]
        simpa using h.2

/-- The tabs in front of a member. -/
theorem putTabs_gives (hat : At hooks p done) {format : Bool} {depth : Nat}
    (hformat : p.format = format) (hdepth : p.depth = depth) :
    Gives hooks p (done.length + (formatted format (tabs depth)).length + 1)
      (putTabs hooks p) fun p' =>
        p'.depth = depth ∧ At hooks p' (done ++ formatted format (tabs depth)) := by
  subst hformat hdepth
  unfold putTabs
  have hlen : (tabs p.depth).length = p.depth := List.length_replicate
  split
  · rename_i hformat
    rw [formatted, if_pos hformat]
    refine ((ensure_gives hat p.depth).more (by omega)).bind fun q hq hroom => ?_
    obtain ⟨hdepth, hat', hlong⟩ := hroom
    obtain ⟨buffer, hput, hf, hat''⟩ := putOver_at hat' (tabs p.depth) [] hlen
      (by rw [List.length_nil]; omega) (by omega)
    rw [List.append_nil, tabs, ← hdepth] at hput
    simp only [hput, bind, Except.bind]
    refine Gives.of_ok rfl (hf _ _) ⟨hdepth, ?_⟩
    have hthere := hat'' q.depth
    rw [← hdepth] at hthere ⊢
    exact hthere
  · rename_i hformat
    rw [formatted, if_neg hformat, List.append_nil]
    exact Gives.of_ok rfl (Frame.refl p) ⟨rfl, hat⟩

/-- A colon, and the tab of the formatted text. -/
theorem length_colon (format : Bool) :
    (ascii ':' :: formatted format [ascii '\t']).length = if format then 2 else 1 := by
  cases format <;> rfl

/-- What stands behind a member. -/
def memberEnd (format last : Bool) : Bytes :=
  (if last then [] else [ascii ',']) ++ formatted format [ascii '\n']

theorem length_memberEnd (format last : Bool) :
    (memberEnd format last).length = (if format then 1 else 0) + (if last then 0 else 1) := by
  cases format <;> cases last <;> rfl

theorem renderMembers_cons (D : Doubles ν) (format : Bool) (depth : Nat) (name : Str)
    (item : Item ν) (rest : List (Str × Item ν)) :
    renderMembers D format depth ((name, item) :: rest) =
      formatted format (tabs depth) ++ (renderString name.val ++
        ((ascii ':' :: formatted format [ascii '\t']) ++ (render D format depth item ++
          (memberEnd format rest.isEmpty ++ renderMembers D format depth rest)))) := by
  rw [renderMembers, memberEnd]
  simp only [List.append_assoc, List.cons_append]

/-- A list of members, from their items. -/
theorem printMembers_gives (hD : D.Sprintf) {child : List (Str × Item ν)} {format : Bool}
    {depth : Nat} (ih : ∀ member ∈ child, Prints D hooks member.2) (hat : At hooks p done)
    (hformat : p.format = format) (hdepth : p.depth = depth) :
    Gives hooks p (done.length + (renderMembers D format depth child).length + 3)
      (printMembers D hooks p child) fun p' =>
        p'.depth = depth ∧ At hooks p' (done ++ renderMembers D format depth child) := by
  induction child generalizing p done with
  | nil =>
    refine Gives.of_ok rfl (Frame.refl p) ⟨hdepth, ?_⟩
    rwa [renderMembers, List.append_nil]
  | cons member rest ihrest =>
    obtain ⟨name, item⟩ := member
    have hlen := congrArg List.length (renderMembers_cons D format depth name item rest)
    simp only [List.length_append, length_colon, length_memberEnd] at hlen
    rw [printMembers, hlen]
    generalize hn : (if format then 2 else 1) = n at hlen ⊢
    generalize hm : (if format then 1 else 0) + (if rest.isEmpty then 0 else 1) = m at hlen ⊢
    -- the tabs and the name
    refine ((putTabs_gives hat hformat hdepth).more ?_).bind fun q hq htabs => ?_
    · omega
    obtain ⟨hdepth₁, hat₁⟩ := htabs
    have hformat₁ : q.format = format := hq.format.trans hformat
    refine ((printString_gives hat₁ name.val).more ?_).bind fun q₂ hq₂ hname => ?_
    · rw [List.length_append]
      omega
    rw [hdepth₁] at hname
    refine (updateOffset_gives (zero_notMem_renderString name.property) hname).bind
      fun q₃ hq₃ hbehind => ?_
    obtain ⟨hdepth₃, hat₃⟩ := hbehind
    have hformat₃ : q₃.format = format := hq₃.format.trans (hq₂.format.trans hformat₁)
    -- the colon
    simp only [hformat₃, hn]
    refine ((ensure_gives hat₃ n).more ?_).bind fun q₄ hq₄ hroom => ?_
    · simp only [List.length_append]
      omega
    obtain ⟨hdepth₄, hat₄, hlong₄⟩ := hroom
    have hformat₄ : q₄.format = format := hq₄.format.trans hformat₃
    obtain ⟨buffer, hput, hf, hat₅⟩ := putOver_at hat₄
      (ascii ':' :: formatted format [ascii '\t']) [] ((length_colon format).trans hn)
      (by rw [List.length_nil]; omega) (by omega)
    rw [List.append_nil, formatted, ← hformat₄] at hput
    simp only [hput, bind, Except.bind]
    refine Gives.frame (hf (q₄.offset + n) q₄.depth) ?_
    -- the value
    have hvalue := ih _ List.mem_cons_self _ _ format depth (hat₅ q₄.depth) hformat₄
      (hdepth₄.trans hdepth₃)
    refine (hvalue.more ?_).bind fun q₆ hq₆ hprinted => ?_
    · simp only [List.length_append, length_colon, hn]
      omega
    refine (updateOffset_gives (zero_notMem_render hD format item depth) hprinted).bind
      fun q₇ hq₇ hbehind => ?_
    obtain ⟨hdepth₇, hat₇⟩ := hbehind
    have hformat₇ : q₇.format = format := hq₇.format.trans (hq₆.format.trans hformat₄)
    -- what stands behind it
    simp only [hformat₇, hm]
    refine ((ensure_gives hat₇ (m + 1)).more ?_).bind fun q₈ hq₈ hroom => ?_
    · simp only [List.length_append, length_colon, hn]
      omega
    obtain ⟨hdepth₈, hat₈, hlong₈⟩ := hroom
    have hformat₈ : q₈.format = format := hq₈.format.trans hformat₇
    obtain ⟨buffer', hput', hf', hat₉⟩ := putOver_at hat₈ (memberEnd format rest.isEmpty) [0]
      ((length_memberEnd format rest.isEmpty).trans hm)
      (by rw [List.length_singleton]; omega) (by omega)
    have hgoal := ihrest (fun i hi => ih i (List.mem_cons_of_mem _ hi)) (hat₉ q₈.depth) hformat₈
      (hdepth₈.trans hdepth₇)
    rw [memberEnd, formatted, ← hformat₈] at hput'
    simp only [hput']
    refine ((hgoal.more ?_).frame (hf' _ _)).imp fun p' _ h => ⟨h.1, ?_⟩
    · simp only [List.length_append, length_colon, length_memberEnd, hn, hm]
      omega
    · rw [renderMembers_cons]
      simpa only [List.append_assoc] using h.2

theorem sprintfFirst_length (hD : D.Sprintf) (d : ν) : (sprintfFirst D d).length < 26 := by
  unfold sprintfFirst
  split
  · exact (by decide : (text "null").length < 26)
  · rename_i hfinite
    rw [Bool.not_eq_true, Bool.or_eq_false_iff] at hfinite
    have := hD.length 15 d hfinite.1 hfinite.2
    omega

theorem sprintfDouble_length (hD : D.Sprintf) (d : ν) : (sprintfDouble D d).length < 26 := by
  rcases sprintfDouble_cases D d with ⟨-, heq⟩ | ⟨⟨hnan, hinf⟩, precision, heq⟩
  · rw [heq]
    decide
  · rw [heq]
    have := hD.length precision d hnan hinf
    omega

theorem sprintfLld_length (n : Int64) : (sprintfLld n).length < 26 := by
  have hlow := Int64.le_toInt n
  have hhigh := Int64.toInt_lt n
  have hdigits : (Numeral.digitsOf 10 n.toInt.natAbs).length ≤ 19 :=
    Numeral.length_digitsOf_le (by omega) (by omega) (by omega)
  unfold sprintfLld
  dsimp only
  split <;> simp only [List.length_cons, List.length_map, List.length_reverse] <;> omega

/-- Printing an item writes its text. -/
theorem prints (hD : D.Sprintf) (item : Item ν) : Prints D hooks item := by
  induction item using Item.ind with
  | null =>
    intro p done format depth hat _ hdepth
    have hlen : (text "null").length = 4 := rfl
    rw [printValue, nul, render]
    exact ((putText_gives hat (Nat.le_of_eq (congrArg (· + 1) hlen))).more (by omega)).imp
      fun p' _ h => ⟨h.1.trans hdepth, h.2⟩
  | bool b =>
    intro p done format depth hat _ hdepth
    have htext : (if b then nul "true" else nul "false") =
        (if b then text "true" else text "false") ++ [0] := by
      cases b <;> rfl
    have hfit : (if b then text "true" else text "false").length + 1 ≤ 6 ∧
        4 ≤ (if b then text "true" else text "false").length := by
      cases b <;> decide
    rw [printValue, htext, render]
    exact ((putText_gives hat hfit.1).more (by omega)).imp
      fun p' _ h => ⟨h.1.trans hdepth, h.2⟩
  | int n =>
    intro p done format depth hat _ hdepth
    rw [printValue, render]
    exact ((printNumber_gives hat (sprintfLld_length n)).more (by omega)).imp
      fun p' _ h => ⟨h.1.trans hdepth, h.2⟩
  | number d =>
    intro p done format depth hat _ hdepth
    have hfirst : numberBuffer (sprintfFirst D d) = .ok (sprintfFirst D d) :=
      if_pos (sprintfFirst_length hD d)
    rw [printValue, hfirst, render]
    exact ((printNumber_gives hat (sprintfDouble_length hD d)).more (by omega)).imp
      fun p' _ h => ⟨h.1.trans hdepth, h.2⟩
  | string s =>
    intro p done format depth hat _ hdepth
    rw [printValue, render]
    exact ((printString_gives hat s.val).more (by omega)).imp
      fun p' _ h => ⟨h.1.trans hdepth, h.2⟩
  | raw s =>
    intro p done format depth hat _ hdepth
    rw [printValue, render]
    exact ((putText_gives hat (Nat.le_refl _)).more (by omega)).imp
      fun p' _ h => ⟨h.1.trans hdepth, h.2⟩
  | array child ih =>
    intro p done format depth hat hformat hdepth
    rw [printValue, render]
    simp only [List.length_append, List.length_cons, List.length_nil]
    refine ((ensure_gives hat 1).more ?_).bind fun q hq hroom => ?_
    · omega
    obtain ⟨hdepth₁, hat₁, hlong⟩ := hroom
    obtain ⟨buffer, hput, hf, hat₂⟩ := putOver_at hat₁ [ascii '['] [] (n := 1) rfl
      (by rw [List.length_nil]; omega) (by omega)
    rw [List.append_nil] at hput
    simp only [hput, bind, Except.bind]
    refine Gives.frame (hf (q.offset + 1) (q.depth + 1)) ?_
    refine ((printElements_gives hD ih (hat₂ (q.depth + 1)) (hq.format.trans hformat)
      (congrArg (· + 1) (hdepth₁.trans hdepth))).more ?_).bind fun r hr helements => ?_
    · rw [List.length_append, List.length_singleton]
      omega
    obtain ⟨hdepth₃, hat₃⟩ := helements
    refine ((ensure_gives hat₃ 2).more ?_).bind fun r' hr' hroom => ?_
    · rw [List.length_append, List.length_append, List.length_singleton]
      omega
    obtain ⟨hdepth₄, hat₄, hlong₄⟩ := hroom
    obtain ⟨buffer', hput', hsame, hwritten⟩ := put_at hat₄ (show _ + (nul "]").length ≤ _ from
      Nat.le_trans (Nat.le_succ _) hlong₄)
    have hoffset := hat₄.offset
    simp only [List.length_append, List.length_singleton] at hoffset
    simp only [hput']
    refine Gives.of_ok rfl ⟨rfl, rfl, Or.inl hsame⟩ ⟨?_, ?_, ?_, ?_⟩
    · dsimp only
      omega
    · dsimp only
      omega
    · simp only [List.length_append, List.length_cons, List.length_nil]
      omega
    · have hnul : nul "]" = [ascii ']', 0] := rfl
      rw [hnul] at hwritten
      simpa using hwritten
  | object child ih =>
    intro p done format depth hat hformat hdepth
    have hopen : (ascii '\x7b' :: formatted format [ascii '\n']).length =
        if format then 2 else 1 := by
      cases format <;> rfl
    have hclose : (formatted format (tabs depth)).length = if format then depth else 0 := by
      cases format with
      | false => rfl
      | true => exact List.length_replicate
    have hneed : (if format then depth + 1 + 1 else 2) = (if format then depth else 0) + 2 := by
      cases format <;> rfl
    rw [printValue, render]
    simp only [List.length_append, List.length_singleton, hopen, hclose, hformat]
    generalize hn : (if format then 2 else 1) = n at hopen ⊢
    refine ((ensure_gives hat (n + 1)).more ?_).bind fun q hq hroom => ?_
    · omega
    obtain ⟨hdepth₁, hat₁, hlong⟩ := hroom
    have hformat₁ : q.format = format := hq.format.trans hformat
    obtain ⟨buffer, hput, hf, hat₂⟩ := putOver_at hat₁
      (ascii '\x7b' :: formatted format [ascii '\n']) [] hopen
      (by rw [List.length_nil]; omega) (by omega)
    rw [List.append_nil, formatted, ← hformat₁] at hput
    simp only [hput, bind, Except.bind]
    refine Gives.frame (hf (q.offset + n) (q.depth + 1)) ?_
    refine ((printMembers_gives hD ih (hat₂ (q.depth + 1)) hformat₁
      (congrArg (· + 1) (hdepth₁.trans hdepth))).more ?_).bind fun r hr hmembers => ?_
    · rw [List.length_append, hopen]
      omega
    obtain ⟨hdepth₃, hat₃⟩ := hmembers
    have hformat₃ : r.format = format := hr.format.trans hformat₁
    simp only [hformat₃, hdepth₃, hneed]
    refine ((ensure_gives hat₃ _).more ?_).bind fun r' hr' hroom => ?_
    · rw [List.length_append, List.length_append, hopen]
      omega
    obtain ⟨hdepth₄, hat₄, hlong₄⟩ := hroom
    have hformat₄ : r'.format = format := hr'.format.trans hformat₃
    have hbytes : formatted format (tabs depth) ++ nul "\x7d" =
        (if r'.format then List.replicate (r'.depth - 1) (ascii '\t') else []) ++ nul "\x7d" := by
      rw [hformat₄, hdepth₄, hdepth₃, Nat.add_sub_cancel]
      rfl
    have htail : (formatted format (tabs depth) ++ nul "\x7d").length =
        (if format then depth else 0) + 2 := by
      rw [List.length_append, hclose]
      rfl
    obtain ⟨buffer', hput', hsame, hwritten⟩ := put_at hat₄
      (show _ + (formatted format (tabs depth) ++ nul "\x7d").length ≤ _ by
        rw [htail]
        exact Nat.le_trans (Nat.le_succ _) hlong₄)
    rw [hbytes] at hput'
    have hoffset := hat₄.offset
    simp only [List.length_append, hopen] at hoffset
    simp only [hput']
    refine Gives.of_ok rfl ⟨rfl, rfl, Or.inl hsame⟩ ⟨?_, ?_, ?_, ?_⟩
    · dsimp only
      omega
    · dsimp only
      omega
    · simp only [List.length_append, hopen, hclose, List.length_singleton]
      omega
    · have hnul : nul "\x7d" = [ascii '\x7d', 0] := rfl
      rw [hnul] at hwritten
      simpa using hwritten

/-! ### The calls -/

/-- A buffer that is empty is only safe when `realloc` makes it longer, or nothing does. -/
theorem at_start (hooks : Hooks) {buffer : Bytes} (asked : List Nat) (noalloc format : Bool)
    (h : buffer ≠ [] ∨ hooks.reallocate = true ∨ noalloc = true) :
    At hooks
      { asked := asked, buffer := buffer, offset := 0, depth := 0, noalloc := noalloc,
        format := format } [] := by
  refine ⟨rfl, List.nil_prefix, ?_⟩
  cases buffer with
  | nil => exact Or.inr ⟨rfl, h.resolve_left fun hne => hne rfl⟩
  | cons b buffer => exact Or.inl (Nat.zero_lt_succ _)

/-- Printing into a new buffer. -/
theorem prints_start (hD : D.Sprintf) (hooks : Hooks) (item : Item ν) {buffer : Bytes}
    (asked : List Nat) (noalloc format : Bool)
    (h : buffer ≠ [] ∨ hooks.reallocate = true ∨ noalloc = true) :
    Gives hooks
      { asked := asked, buffer := buffer, offset := 0, depth := 0, noalloc := noalloc,
        format := format } ((render D format 0 item).length + 3)
      (printValue D hooks
        { asked := asked, buffer := buffer, offset := 0, depth := 0, noalloc := noalloc,
          format := format } item) fun p' => Written p' [] (render D format 0 item) := by
  have hgives := prints hD item _ _ format 0 (at_start hooks asked noalloc format h) rfl rfl
  rw [List.length_nil, Nat.zero_add] at hgives
  exact hgives.imp fun _ _ hw => hw.2

/-- What keeps a text of `length` bytes from being printed to a block that begins with `first`
bytes: an allocation that was refused, or more than `INT_MAX` bytes. -/
def Hindered (hooks : Hooks) (first length : Nat) (failure : Failure) : Prop :=
  Refused hooks (max first ((length + 3) * 2)) failure ∨
    failure = .tooLong ∧ intMax < length + 3

theorem Lacks.hindered {first length : Nat} {failure : Failure}
    (h : Lacks hooks p (length + 3) failure) (halloc : p.noalloc = false) :
    Hindered hooks first length failure := by
  rcases h with ⟨-, hrefused⟩ | ⟨heq, hlong⟩ | ⟨-, hno, -⟩
  · exact Or.inl (hrefused.mono (Nat.le_max_right _ _))
  · exact Or.inr ⟨heq, hlong⟩
  · rw [halloc] at hno
    cases hno

/-- `print` returns the text of the item, in a block of its own size, or fails. -/
theorem print_cases (hD : D.Sprintf) (hooks : Hooks) (item : Item ν) (format : Bool) :
    print D hooks item format = .ok (render D format 0 item ++ [0]) ∨
      ∃ failure, print D hooks item format = .error (.failed failure) ∧
        Hindered hooks 256 (render D format 0 item).length failure := by
  have hne : hooks.block 256 ≠ [] := fun h => by
    have := length_block hooks 256
    rw [h] at this
    cases this
  rw [print]
  split
  · rename_i hrefused
    rw [Bool.not_eq_true] at hrefused
    exact Or.inr ⟨_, rfl, Or.inl ⟨_, _, rfl, hrefused, Nat.le_max_left _ _⟩⟩
  obtain ⟨p, hvalue, hf, hwritten⟩ | ⟨failure, hvalue, hlacks⟩ :=
    prints_start hD hooks item [256] false format (Or.inl hne)
  · obtain ⟨hupdate, hat⟩ :=
      @updateOffset_eq hooks p [] _ hwritten (zero_notMem_render hD format item 0)
    have hpre := List.prefix_iff_eq_take.1 hwritten.written
    rw [List.nil_append] at hupdate hpre
    simp only [hvalue, hupdate, bind, Except.bind]
    split
    · rename_i hrefused
      rw [Bool.not_eq_true] at hrefused
      exact Or.inr ⟨_, rfl, Or.inl ⟨_, _, rfl, hrefused, by omega⟩⟩
    left
    split
    · rw [← List.length_singleton, ← List.length_append, ← hpre]
    · have hhead := congrArg (List.take (render D format 0 item).length) hpre
      rw [List.take_take, List.take_left', Nat.min_eq_left] at hhead
      · rw [← hhead]
      · rw [List.length_append]
        omega
      · rfl
  · simp only [hvalue, bind, Except.bind]
    exact Or.inr ⟨failure, rfl, hlacks.hindered rfl⟩

theorem half_sprintf : half.Sprintf where
  length _ _ _ _ := show (text "0.5").length < 25 by decide
  literal _ _ _ _ := show 0 < strtodLength (text "0.5") ∧ strtodLength (text "0.5") = 3 by decide
  chars _ _ _ _ := List.all_eq_true.1 (rfl : (text "0.5").all isNumberChar = true)
  leading _ _ _ _ := ⟨_, _, rfl, by decide⟩

/-- Memory without an end. -/
def plenty : Hooks where
  allocate _ _ := true
  reallocate := true
  fresh _ _ := 0xAA

theorem not_hindered_plenty {first length : Nat} {failure : Failure} (h : length + 3 ≤ intMax) :
    ¬ Hindered plenty first length failure := by
  rintro (⟨_, _, -, hrefused, -⟩ | ⟨-, hlong⟩)
  · cases hrefused
  · omega

end Json
end CFunction
