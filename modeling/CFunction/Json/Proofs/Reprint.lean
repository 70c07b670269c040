import CFunction.Json.Proofs.RoundTrip

/-!
# What is parsed can be printed and read again

A parsed item holds no raw text and is not nested deeper than the limit. So the text of every item
that the parser gave is read back.
-/

namespace CFunction
namespace Json

open CString

variable {ν : Type} {D : Doubles ν} {content : Bytes} {fuel : Nat}

/-- An item that stands at this depth in a text. -/
structure Shaped (depth : Nat) (item : Item ν) : Prop where
  noRaw : noRaw item = true
  depth : depth + item.depth ≤ nestingLimit

structure ShapedItems (depth : Nat) (child : List (Item ν)) : Prop where
  noRaw : noRawItems child = true
  depth : depth + Item.depthItems child ≤ nestingLimit

structure ShapedMembers (depth : Nat) (child : List (Str × Item ν)) : Prop where
  noRaw : noRawMembers child = true
  depth : depth + Item.depthMembers child ≤ nestingLimit

/-- The value of a result has `P`. -/
def Yields {α : Type} (result : Except Stop (α × Nat)) (P : α → Prop) : Prop :=
  ∀ value offset, result = .ok (value, offset) → P value

theorem Yields.bind {α β : Type} {result : Except Stop (α × Nat)} {P : α → Prop} {Q : β → Prop}
    {next : α × Nat → Except Stop (β × Nat)} (h : Yields result P)
    (hnext : ∀ value offset, P value → Yields (next (value, offset)) Q) :
    Yields (result >>= next) Q := by
  intro value offset hok
  cases result with
  | error stop => cases hok
  | ok pair => exact hnext pair.1 pair.2 (h pair.1 pair.2 rfl) value offset hok

theorem yields_error {α : Type} {stop : Stop} {P : α → Prop} :
    Yields (.error stop : Except Stop (α × Nat)) P := fun _ _ h => by cases h

theorem yields_ok {α : Type} {value : α} {offset : Nat} {P : α → Prop} (h : P value) :
    Yields (.ok (value, offset)) P := fun _ _ hok => by cases hok; exact h

theorem shaped_leaf {depth : Nat} {item : Item ν} (hraw : noRaw item = true)
    (hleaf : item.depth = 0) (hdepth : depth ≤ nestingLimit) : Shaped depth item :=
  ⟨hraw, by rwa [hleaf]⟩

/-- What the functions of the recursion yield below the limit. -/
structure ShapeInvariant (D : Doubles ν) (content : Bytes) (fuel : Nat) : Prop where
  value : ∀ offset depth, depth ≤ nestingLimit →
    Yields (parseValue D content fuel offset depth) (Shaped depth)
  array : ∀ offset depth, Yields (parseArray D content fuel offset depth) (Shaped depth)
  elements : ∀ offset depth, depth ≤ nestingLimit →
    Yields (parseElements D content fuel offset depth) (ShapedItems depth)
  object : ∀ offset depth, Yields (parseObject D content fuel offset depth) (Shaped depth)
  members : ∀ offset depth, depth ≤ nestingLimit →
    Yields (parseMembers D content fuel offset depth) (ShapedMembers depth)

theorem parseNumber_shaped {offset depth : Nat} (hdepth : depth ≤ nestingLimit) :
    Yields (parseNumber D content offset) (Shaped depth) := by
  unfold parseNumber
  dsimp only
  split
  · exact yields_error
  · split
    · split
      · exact yields_error
      · exact yields_ok (shaped_leaf rfl rfl hdepth)
    · exact yields_ok (shaped_leaf rfl rfl hdepth)

theorem parseValue_shaped (ih : ShapeInvariant D content fuel) (offset : Nat) {depth : Nat}
    (hdepth : depth ≤ nestingLimit) :
    Yields (parseValue D content (fuel + 1) offset depth) (Shaped depth) := by
  rw [parseValue]
  split
  · exact yields_ok (shaped_leaf rfl rfl hdepth)
  split
  · exact yields_ok (shaped_leaf rfl rfl hdepth)
  split
  · exact yields_ok (shaped_leaf rfl rfl hdepth)
  split
  · exact yields_error
  split
  · refine Yields.bind (P := fun _ => True) (fun _ _ _ => trivial) fun s offset' _ => ?_
    exact yields_ok (shaped_leaf rfl rfl hdepth)
  split
  · exact parseNumber_shaped hdepth
  split
  · exact ih.array offset depth
  split
  · exact ih.object offset depth
  · exact yields_error

theorem parseArray_shaped (ih : ShapeInvariant D content fuel) (offset depth : Nat) :
    Yields (parseArray D content (fuel + 1) offset depth) (Shaped depth) := by
  rw [parseArray]
  split
  · exact yields_error
  rename_i hlimit
  have hlimit : depth + 1 ≤ nestingLimit := Nat.lt_of_not_le hlimit
  cases byteAt content offset with
  | error stop => exact yields_error
  | ok c =>
    dsimp only [bind, Except.bind]
    split
    · exact yields_error
    split
    · exact yields_error
    split
    · exact yields_ok ⟨rfl, hlimit⟩
    refine (ih.elements _ (depth + 1) hlimit).bind fun child offset' hchild => ?_
    dsimp only
    split
    · refine yields_ok ⟨hchild.noRaw, ?_⟩
      have := hchild.depth
      rw [Item.depth]
      omega
    · exact yields_error

theorem parseElements_shaped (ih : ShapeInvariant D content fuel) (offset : Nat) {depth : Nat}
    (hdepth : depth ≤ nestingLimit) :
    Yields (parseElements D content (fuel + 1) offset depth) (ShapedItems depth) := by
  rw [parseElements]
  refine (ih.value _ depth hdepth).bind fun item offset' hitem => ?_
  have hitemDepth := hitem.depth
  dsimp only
  split
  · refine (ih.elements _ depth hdepth).bind fun rest offset'' hrest => ?_
    have hrestDepth := hrest.depth
    refine yields_ok ⟨?_, ?_⟩
    · rw [noRawItems, hitem.noRaw, hrest.noRaw]
      rfl
    · rw [Item.depthItems]
      dsimp only
      omega
  · refine yields_ok ⟨?_, ?_⟩
    · rw [noRawItems, hitem.noRaw]
      rfl
    · rw [Item.depthItems, Item.depthItems]
      omega

theorem parseObject_shaped (ih : ShapeInvariant D content fuel) (offset depth : Nat) :
    Yields (parseObject D content (fuel + 1) offset depth) (Shaped depth) := by
  rw [parseObject]
  split
  · exact yields_error
  rename_i hlimit
  have hlimit : depth + 1 ≤ nestingLimit := Nat.lt_of_not_le hlimit
  split
  · exact yields_error
  dsimp only
  split
  · exact yields_error
  split
  · exact yields_ok ⟨rfl, hlimit⟩
  refine (ih.members _ (depth + 1) hlimit).bind fun child offset' hchild => ?_
  dsimp only
  split
  · refine yields_ok ⟨hchild.noRaw, ?_⟩
    have := hchild.depth
    rw [Item.depth]
    omega
  · exact yields_error

theorem parseMembers_shaped (ih : ShapeInvariant D content fuel) (offset : Nat) {depth : Nat}
    (hdepth : depth ≤ nestingLimit) :
    Yields (parseMembers D content (fuel + 1) offset depth) (ShapedMembers depth) := by
  rw [parseMembers]
  refine Yields.bind (P := fun _ => True) (fun _ _ _ => trivial) fun name colon _ => ?_
  dsimp only
  split
  · exact yields_error
  refine (ih.value _ depth hdepth).bind fun item offset' hitem => ?_
  have hitemDepth := hitem.depth
  dsimp only
  split
  · refine (ih.members _ depth hdepth).bind fun rest offset'' hrest => ?_
    have hrestDepth := hrest.depth
    refine yields_ok ⟨?_, ?_⟩
    · rw [noRawMembers, hitem.noRaw, hrest.noRaw]
      rfl
    · rw [Item.depthMembers]
      dsimp only
      omega
  · refine yields_ok ⟨?_, ?_⟩
    · rw [noRawMembers, hitem.noRaw]
      rfl
    · rw [Item.depthMembers, Item.depthMembers]
      omega

theorem shapeInvariant (D : Doubles ν) (content : Bytes) (fuel : Nat) :
    ShapeInvariant D content fuel := by
  induction fuel with
  | zero =>
    refine ⟨?_, ?_, ?_, ?_, ?_⟩
    · intro offset depth _
      rw [parseValue]
      exact yields_error
    · intro offset depth
      rw [parseArray]
      exact yields_error
    · intro offset depth _
      rw [parseElements]
      exact yields_error
    · intro offset depth
      rw [parseObject]
      exact yields_error
    · intro offset depth _
      rw [parseMembers]
      exact yields_error
  | succ fuel ih =>
    exact ⟨fun offset _ h => parseValue_shaped ih offset h,
      fun offset depth => parseArray_shaped ih offset depth,
      fun offset _ h => parseElements_shaped ih offset h,
      fun offset depth => parseObject_shaped ih offset depth,
      fun offset _ h => parseMembers_shaped ih offset h⟩

/-- A parsed item holds no raw text and respects the nesting limit. -/
theorem parseText_shaped (D : Doubles ν) (value : Bytes) (requireNullTerminated : Bool) :
    Yields (parseText D value requireNullTerminated) (Shaped 0) := by
  rw [parseText]
  split
  · exact yields_error
  refine ((shapeInvariant D value _).value _ 0 (Nat.zero_le _)).bind fun item offset hitem => ?_
  dsimp only
  split
  · split
    · exact yields_ok hitem
    · exact yields_error
  · exact yields_ok hitem

theorem parseWithLengthOpts_shaped (D : Doubles ν) (value : Bytes)
    (requireNullTerminated : Bool) :
    Yields (parseWithLengthOpts D value requireNullTerminated) (Shaped 0) := by
  intro item offset hok
  rw [parseWithLengthOpts] at hok
  split at hok
  · cases hok
  · exact parseText_shaped D value requireNullTerminated item offset hok

/-- The item of every text that is accepted holds no raw text and is within the nesting limit. It
can be printed, unless the memory or `INT_MAX` hinders that, and its text, formatted or not, is
accepted and gives what its numbers say. -/
theorem parse_print_parse (hD : D.Sprintf) {value : Bytes} {requireNullTerminated : Bool}
    {item : Item ν} {parseEnd : Nat}
    (hparse : parseWithLengthOpts D value requireNullTerminated = .ok (item, parseEnd)) :
    noRaw item = true ∧ item.depth ≤ nestingLimit ∧ ∀ (hooks : Hooks) (format : Bool),
      (∃ block, print D hooks item format = .ok block ∧
        parseWithOpts D block true = .ok (reread D item, block.length - 1)) ∨
      ∃ failure, print D hooks item format = .error (.failed failure) ∧
        Hindered hooks 256 (render D format 0 item).length failure := by
  have hshaped := parseWithLengthOpts_shaped D value requireNullTerminated item parseEnd hparse
  have hdepth := hshaped.depth
  rw [Nat.zero_add] at hdepth
  refine ⟨hshaped.noRaw, hdepth, fun hooks format => ?_⟩
  rcases print_cases hD hooks item format with hok | hfail
  · refine Or.inl ⟨_, hok, ?_⟩
    rw [parseWithOpts_render hD hshaped.noRaw hdepth format [] true, List.length_append]
    rfl
  · exact Or.inr hfail

theorem parse_print_parse_half :
    ∃ block, print half plenty (.array [.null, .number ()]) true = .ok block ∧
      parseWithOpts half block true = .ok (.array [.null, .number ()], block.length - 1) := by
  have hparse : parseWithLengthOpts half (text " [null ,0.5]") false =
      .ok (.array [.null, .number ()], 12) := rfl
  rcases (parse_print_parse half_sprintf hparse).2.2 plenty true with hok | ⟨_, -, hhindered⟩
  · exact hok
  · exact absurd hhindered (not_hindered_plenty (by decide))

end Json
end CFunction
