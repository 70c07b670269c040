import CFunction.Json.Proofs.MinifyText
import CFunction.Json.Proofs.PrintRender

/-!
# Minifying what was printed

The formatted text of an item is the other one with blanks. Minifying takes exactly these out,
unless a string ends with a backslash: the second of the two backslashes that are printed for it is
taken for an escape of the closing quote.
-/

namespace CFunction
namespace Json

open CString

variable {ν : Type} {D : Doubles ν} {s t w : Bytes} {c : UInt8}

/-! ### Strings -/

theorem splitString_step (hquote : c ≠ ascii '"')
    (hescape : ¬(c = ascii '\\' ∧ t.head? = some (ascii '"'))) :
    splitString (c :: t) = (c :: (splitString t).1, (splitString t).2) := by
  cases t with
  | nil => rfl
  | cons d t => rw [splitString, if_neg hquote, if_neg fun h => hescape ⟨h.1, congrArg some h.2⟩]

theorem splitString_plain (hw : ∀ c ∈ w, c ≠ ascii '"' ∧ c ≠ ascii '\\') (t : Bytes) :
    splitString (w ++ t) = (w ++ (splitString t).1, (splitString t).2) := by
  induction w with
  | nil => rfl
  | cons c w ih =>
    obtain ⟨hc, hw⟩ := List.forall_mem_cons.1 hw
    rw [List.cons_append, splitString_step hc.1 fun h => hc.2 h.1, ih hw]
    rfl

/-- What is printed for one character is no end of a string. -/
theorem splitString_escape (c : UInt8) (ht : c = ascii '\\' → t.head? ≠ some (ascii '"')) :
    splitString ((escape c).1 ++ t) = ((escape c).1 ++ (splitString t).1, (splitString t).2) := by
  rcases escapeKind c with ⟨-, heq, hquote, hback⟩ | ⟨-, e, he, heq⟩ | ⟨-, hcontrol, heq⟩
  · rw [heq]
    exact splitString_plain (fun d hd => List.mem_singleton.1 hd ▸ ⟨hquote, hback⟩) t
  · -- a backslash and one more byte
    have hback : e = ascii '\\' → c = ascii '\\' := by
      rintro rfl
      simp only [shortEscapes, List.mem_cons, List.not_mem_nil, or_false, Prod.mk.injEq] at he
      rcases he with ⟨he, -⟩ | ⟨he, -⟩ | ⟨he, -⟩ | ⟨he, -⟩ | ⟨he, -⟩ | ⟨he, -⟩ | ⟨-, hc⟩
      · exact absurd he (by decide)
      · exact absurd he (by decide)
      · exact absurd he (by decide)
      · exact absurd he (by decide)
      · exact absurd he (by decide)
      · exact absurd he (by decide)
      · exact hc
    rw [heq, List.cons_append, List.singleton_append]
    by_cases hquote : e = ascii '"'
    · rw [hquote, splitString, if_neg (by decide), if_pos ⟨rfl, rfl⟩]
      rfl
    · have hhead : ¬(ascii '\\' = ascii '\\' ∧ (e :: t).head? = some (ascii '"')) :=
        fun h => hquote (Option.some.inj h.2)
      rw [splitString_step (by decide) hhead, splitString_step hquote fun h => ht (hback h.1) h.2]
      rfl
  · have hdigit : ∀ d : Fin 16, hexDigit d ≠ ascii '"' ∧ hexDigit d ≠ ascii '\\' := by decide
    have hplain : ∀ d ∈ text "u00" ++ [hexDigit (c.toNat / 16), hexDigit (c.toNat % 16)],
        d ≠ ascii '"' ∧ d ≠ ascii '\\' := by
      intro d hd
      rcases List.mem_append.1 hd with hd | hd
      · have hall : (text "u00").all (fun d => d != ascii '"' && d != ascii '\\') = true := rfl
        have := List.all_eq_true.1 hall d hd
        rwa [Bool.and_eq_true, bne_iff_ne, bne_iff_ne] at this
      · rcases List.mem_pair.1 hd with rfl | rfl
        · exact hdigit ⟨c.toNat / 16, by omega⟩
        · exact hdigit ⟨c.toNat % 16, by omega⟩
    rw [heq, List.cons_append, List.cons_append, splitString_step (by decide) ?_,
      splitString_plain hplain]
    · rfl
    · have hu : ascii 'u' ≠ ascii '"' := by decide
      exact fun h => hu (Option.some.inj h.2)

/-- A printed string does not start like the end of one. -/
theorem head_escape (c : UInt8) (t : Bytes) : ((escape c).1 ++ t).head? ≠ some (ascii '"') := by
  have hback : ascii '\\' ≠ ascii '"' := by decide
  rcases escapeKind c with ⟨-, heq, hquote, -⟩ | ⟨-, e, he, heq⟩ | ⟨-, hcontrol, heq⟩
  · rw [heq]
    exact fun h => hquote (Option.some.inj h)
  · rw [heq]
    exact fun h => hback (Option.some.inj h)
  · rw [heq]
    exact fun h => hback (Option.some.inj h)

/-- The closing quote of a printed string is found, unless a backslash stands in front of it. -/
theorem splitString_escaped (hs : s.getLast? ≠ some (ascii '\\')) (t : Bytes) :
    splitString (escaped s ++ ascii '"' :: t) = (escaped s ++ [ascii '"'], t) := by
  induction s with
  | nil =>
    cases t with
    | nil => rfl
    | cons d t => exact (splitString.eq_3 ..).trans (if_pos rfl)
  | cons c s ih =>
    have hcut : escaped (c :: s) = (escape c).1 ++ escaped s := List.flatMap_cons
    have hrest : s.getLast? ≠ some (ascii '\\') := by
      cases s with
      | nil => exact (Option.some_ne_none _).symm
      | cons d s => exact hs
    have hhead : c = ascii '\\' → (escaped s ++ ascii '"' :: t).head? ≠ some (ascii '"') := by
      rintro rfl
      cases s with
      | nil => exact absurd rfl hs
      | cons d s =>
        rw [show escaped (d :: s) = (escape d).1 ++ escaped s from List.flatMap_cons,
          List.append_assoc]
        exact head_escape d _
    rw [hcut, List.append_assoc, splitString_escape c hhead, ih hrest, List.append_assoc]

/-! ### Pieces of a text -/

/-- Neither a blank nor the start of a comment or a string. -/
def Solid (c : UInt8) : Prop := isBlank c = false ∧ c ≠ ascii '/' ∧ c ≠ ascii '"'

theorem minified_solid (hw : ∀ c ∈ w, Solid c) (t : Bytes) :
    minified (w ++ t) = w ++ minified t := by
  induction w with
  | nil => rfl
  | cons c w ih =>
    obtain ⟨⟨hblank, hslash, hquote⟩, hw⟩ := List.forall_mem_cons.1 hw
    rw [List.cons_append, minified, hblank, if_neg Bool.false_ne_true, if_neg hslash, if_neg hquote,
      ih hw]
    rfl

theorem minified_blanks (hw : ∀ c ∈ w, isBlank c = true) (t : Bytes) :
    minified (w ++ t) = minified t := by
  induction w with
  | nil => rfl
  | cons c w ih =>
    obtain ⟨hc, hw⟩ := List.forall_mem_cons.1 hw
    rw [List.cons_append, minified, if_pos hc, ih hw]

theorem minified_string (hs : s.getLast? ≠ some (ascii '\\')) (t : Bytes) :
    minified (renderString s ++ t) = renderString s ++ minified t := by
  rw [renderString_eq, List.append_assoc, List.cons_append, List.singleton_append, minified,
    if_neg (by decide), if_neg (by decide), if_pos rfl, splitString_escaped hs]
  rfl

theorem solid_of_number (hc : isNumberChar c = true) : Solid c := by
  have hother : ∀ d ∈ [ascii ' ', ascii '\t', ascii '\r', ascii '\n', ascii '/', ascii '"'],
      c ≠ d := by
    have hall : [ascii ' ', ascii '\t', ascii '\r', ascii '\n', ascii '/', ascii '"'].all
        (fun d => ! isNumberChar d) = true := rfl
    intro d hd he
    have hd := List.all_eq_true.1 hall d hd
    rw [← he, hc] at hd
    cases hd
  simp only [List.forall_mem_cons] at hother
  obtain ⟨hspace, htab, hreturn, hline, hslash, hquote, -⟩ := hother
  refine ⟨?_, hslash, hquote⟩
  rw [← Bool.not_eq_true, isBlank_iff]
  rintro (h | h | h | h)
  · exact hspace h
  · exact htab h
  · exact hreturn h
  · exact hline h

theorem solid_text {word : String} (h : (text word).all (fun c => ! isBlank c && c != ascii '/' &&
    c != ascii '"') = true) : ∀ c ∈ text word, Solid c := by
  intro c hc
  have := List.all_eq_true.1 h c hc
  rw [Bool.and_eq_true, Bool.and_eq_true, Bool.not_eq_true', bne_iff_ne, bne_iff_ne] at this
  exact ⟨this.1.1, this.1.2, this.2⟩

theorem blanks_formatted (hw : ∀ c ∈ w, isBlank c = true) (t : Bytes) :
    minified (formatted true w ++ t) = formatted false w ++ minified t :=
  minified_blanks hw t

/-! ### Items -/

mutual

/-- There is no raw text, and no string or name ends with a backslash. -/
def Minifiable : Item ν → Prop
  | .raw _ => False
  | .string valuestring => valuestring.val.getLast? ≠ some (ascii '\\')
  | .array child => MinifiableItems child
  | .object child => MinifiableMembers child
  | _ => True

def MinifiableItems : List (Item ν) → Prop
  | [] => True
  | item :: rest => Minifiable item ∧ MinifiableItems rest

def MinifiableMembers : List (Str × Item ν) → Prop
  | [] => True
  | (name, item) :: rest =>
    name.val.getLast? ≠ some (ascii '\\') ∧ Minifiable item ∧ MinifiableMembers rest

end

/-- Minifying turns the formatted text of the item into the other one, whatever follows. -/
def Shrinks (D : Doubles ν) (item : Item ν) : Prop :=
  ∀ depth t, minified (render D true depth item ++ t) = render D false depth item ++ minified t

theorem minified_elements {child : List (Item ν)} (h : ∀ item ∈ child, Shrinks D item)
    (depth : Nat) (t : Bytes) :
    minified (renderElements D true depth child ++ t) =
      renderElements D false depth child ++ minified t := by
  induction child with
  | nil => rfl
  | cons item rest ih =>
    obtain ⟨hitem, hrest⟩ := List.forall_mem_cons.1 h
    have hcomma : ∀ t,
        minified ((if rest.isEmpty then [] else ascii ',' :: formatted true [ascii ' ']) ++ t) =
        (if rest.isEmpty then [] else ascii ',' :: formatted false [ascii ' ']) ++ minified t := by
      intro t
      split
      · rfl
      · have hsolid : ∀ c ∈ [ascii ','], Solid c := fun c hc =>
          List.mem_singleton.1 hc ▸ ⟨by decide, by decide, by decide⟩
        have hblank : ∀ c ∈ [ascii ' '], isBlank c =
          true := fun c hc => List.mem_singleton.1 hc ▸ rfl
        exact (minified_solid hsolid _).trans (congrArg (ascii ',' :: ·) (minified_blanks hblank t))
    rw [renderElements, renderElements, List.append_assoc, List.append_assoc, hitem, hcomma,
      ih hrest,
      List.append_assoc, List.append_assoc]

theorem blank_tabs (depth : Nat) : ∀ c ∈ tabs depth, isBlank c = true := by
  intro c hc
  rw [List.eq_of_mem_replicate hc]
  rfl

theorem minified_one (hc : Solid c) (t : Bytes) : minified (c :: t) = c :: minified t := by
  have hsolid : ∀ d ∈ [c], Solid d := fun d hd => List.mem_singleton.1 hd ▸ hc
  exact minified_solid hsolid t

theorem solid_of_mem (hc : c ∈ text "[]\x7b\x7d:,") : Solid c := by
  have h : (text "[]\x7b\x7d:,").all (fun c => ! isBlank c && c != ascii '/' && c !=
    ascii '"') = true :=
    rfl
  exact solid_text h c hc

theorem minified_memberEnd (last : Bool) (t : Bytes) :
    minified (memberEnd true last ++ t) = memberEnd false last ++ minified t := by
  have hblank : ∀ c ∈ [ascii '\n'], isBlank c = true := fun c hc => List.mem_singleton.1 hc ▸ rfl
  cases last with
  | true => exact minified_blanks hblank t
  | false =>
    have hcomma : Solid (ascii ',') := solid_of_mem (by decide)
    exact (minified_one hcomma _).trans (congrArg (ascii ',' :: ·) (minified_blanks hblank t))

theorem minified_members {child : List (Str × Item ν)}
    (hnames : ∀ m ∈ child, m.1.val.getLast? ≠ some (ascii '\\'))
    (h : ∀ m ∈ child, Shrinks D m.2) (depth : Nat) (t : Bytes) :
    minified (renderMembers D true depth child ++ t) =
      renderMembers D false depth child ++ minified t := by
  induction child with
  | nil => rfl
  | cons m rest ih =>
    obtain ⟨name, item⟩ := m
    obtain ⟨hname, hnames⟩ := List.forall_mem_cons.1 hnames
    obtain ⟨hitem, hrest⟩ := List.forall_mem_cons.1 h
    have hcolon : ∀ t, minified ((ascii ':' :: formatted true [ascii '\t']) ++ t) =
        (ascii ':' :: formatted false [ascii '\t']) ++ minified t := by
      intro t
      have hblank : ∀ c ∈ [ascii '\t'], isBlank c =
        true := fun c hc => List.mem_singleton.1 hc ▸ rfl
      have hsolid : Solid (ascii ':') := solid_of_mem (by decide)
      exact (minified_one hsolid _).trans (congrArg (ascii ':' :: ·) (minified_blanks hblank t))
    rw [renderMembers_cons, renderMembers_cons]
    simp only [List.append_assoc]
    rw [blanks_formatted (blank_tabs depth), minified_string hname, hcolon, hitem,
      minified_memberEnd,
      ih hnames hrest]

theorem minifiable_items {child : List (Item ν)} (h : MinifiableItems child) :
    ∀ item ∈ child, Minifiable item := by
  induction child with
  | nil => exact fun _ h => absurd h List.not_mem_nil
  | cons item rest ih => exact List.forall_mem_cons.2 ⟨h.1, ih h.2⟩

theorem minifiable_members {child : List (Str × Item ν)} (h : MinifiableMembers child) :
    (∀ m ∈ child, m.1.val.getLast? ≠ some (ascii '\\')) ∧ ∀ m ∈ child, Minifiable m.2 := by
  induction child with
  | nil => exact ⟨fun _ h => absurd h List.not_mem_nil, fun _ h => absurd h List.not_mem_nil⟩
  | cons m rest ih =>
    obtain ⟨hnames, hitems⟩ := ih h.2.2
    exact ⟨List.forall_mem_cons.2 ⟨h.1, hnames⟩, List.forall_mem_cons.2 ⟨h.2.1, hitems⟩⟩

theorem shrinks (hD : D.Sprintf) (item : Item ν) (h : Minifiable item) : Shrinks D item := by
  induction item using Item.ind with
  | null => exact fun _ t => minified_solid (solid_text rfl) t
  | bool b =>
    intro _ t
    cases b with
    | true => exact minified_solid (solid_text rfl) t
    | false => exact minified_solid (solid_text rfl) t
  | int n =>
    exact fun _ t => minified_solid (fun c hc => solid_of_number (isNumberChar_lld n c hc)) t
  | number d =>
    intro _ t
    rw [render, render]
    rcases sprintfDouble_cases D d with ⟨-, heq⟩ | ⟨⟨hnan, hinf⟩, precision, heq⟩
    · rw [heq]
      exact minified_solid (solid_text rfl) t
    · rw [heq]
      exact minified_solid (fun c hc => solid_of_number (hD.chars precision d hnan hinf c hc)) t
  | string s => exact fun _ t => minified_string h t
  | raw s => exact h.elim
  | array child ih =>
    intro depth t
    have hitems := minifiable_items h
    have hopen : Solid (ascii '[') := solid_of_mem (by decide)
    have hclose : Solid (ascii ']') := solid_of_mem (by decide)
    rw [render, render]
    simp only [List.append_assoc, List.cons_append, List.nil_append]
    rw [minified_one hopen, minified_elements (fun item hi => ih item hi (hitems item hi)),
      minified_one hclose]
  | object child ih =>
    intro depth t
    obtain ⟨hnames, hitems⟩ := minifiable_members h
    have hopen : Solid (ascii '\x7b') := solid_of_mem (by decide)
    have hclose : Solid (ascii '\x7d') := solid_of_mem (by decide)
    have hline : ∀ c ∈ [ascii '\n'], isBlank c = true := fun c hc => List.mem_singleton.1 hc ▸ rfl
    rw [render, render]
    simp only [List.append_assoc, List.cons_append, List.nil_append]
    rw [minified_one hopen, blanks_formatted hline,
      minified_members hnames (fun m hm => ih m hm (hitems m hm)),
      blanks_formatted (blank_tabs depth), minified_one hclose]

/-- In its own buffer the formatted text of an item becomes the unformatted one. -/
theorem minify_print (hD : D.Sprintf) {item : Item ν} (h : Minifiable item) (rest : Bytes) :
    ∃ buffer, minify (render D true 0 item ++ 0 :: rest) = some buffer ∧
      Contains buffer (render D false 0 item) := by
  have hnul := zero_notMem_render hD true item 0
  obtain ⟨buffer, hminify, hcontains, -⟩ := minify_eq rest hnul
  have hshrink := shrinks hD item h 0 []
  rw [List.append_nil, minified, List.append_nil] at hshrink
  rw [hshrink] at hcontains
  exact ⟨buffer, hminify, hcontains⟩

theorem minify_print_half :
    let item : Item Unit := .object [(Str.ofBytes (text "a b"),
      .array [.number (), .string (Str.ofBytes (text "/* \" */"))])]
    ∃ buffer, minify (render half true 0 item ++ 0 :: []) = some buffer ∧
      Contains buffer (render half false 0 item) := by
  intro item
  have hname : (text "a b").getLast? ≠ some (ascii '\\') := by decide
  have hstring : (text "/* \" */").getLast? ≠ some (ascii '\\') := by decide
  have h : Minifiable item := ⟨hname, ⟨trivial, hstring, trivial⟩, trivial⟩
  exact minify_print half_sprintf h []

end Json
end CFunction
