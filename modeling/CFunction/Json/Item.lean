import CFunction.Misc.CString
import Mathlib.Data.List.TakeWhile

/-!
# Items of a document

A `cJSON` item with the items under it. An object keeps its members in their order, and a name
may stand in it more than once. The type of a `double` is a parameter.
-/

namespace CFunction
namespace Json

open CString

/-- A string of the heap, which ends in front of its NUL. -/
abbrev Str := { s : Bytes // (0 : UInt8) ∉ s }

theorem zero_notMem_cstr (buf : Bytes) : (0 : UInt8) ∉ cstr buf := fun h => by
  have := List.mem_takeWhile_imp h
  simp at this

/-- The string that stands in a buffer. -/
def Str.ofBytes (buf : Bytes) : Str := ⟨cstr buf, zero_notMem_cstr buf⟩

theorem cstr_eq_self {s : Bytes} (h : 0 ∉ s) : cstr s = s :=
  List.takeWhile_eq_self_iff.2 fun _ hb => decide_eq_true fun he => h (he ▸ hb)

@[simp] theorem Str.ofBytes_val (s : Str) : Str.ofBytes s.val = s :=
  Subtype.ext (cstr_eq_self s.property)

/-- `cJSON` -/
inductive Item (ν : Type) where
  | null
  | bool (valueint : Bool)
  | int (valueint : Int64)
  | number (valuedouble : ν)
  | string (valuestring : Str)
  | raw (valuestring : Str)
  | array (child : List (Item ν))
  | object (child : List (Str × Item ν))

namespace Item

variable {ν : Type}

/-- Induction over the items of a document. -/
@[elab_as_elim] theorem ind {P : Item ν → Prop} (null : P .null)
    (bool : ∀ b, P (.bool b)) (int : ∀ n, P (.int n)) (number : ∀ d, P (.number d))
    (string : ∀ s, P (.string s)) (raw : ∀ s, P (.raw s))
    (array : ∀ child, (∀ item ∈ child, P item) → P (.array child))
    (object : ∀ child, (∀ member ∈ child, P member.2) → P (.object child))
    (item : Item ν) : P item :=
  Item.rec (motive_1 := P) (motive_2 := fun child => ∀ item ∈ child, P item)
    (motive_3 := fun child => ∀ member ∈ child, P member.2)
    (motive_4 := fun member => P member.2)
    null bool int number string raw array object
    (fun _ h => absurd h List.not_mem_nil)
    (fun _ _ hhead htail _ h => (List.mem_cons.1 h).elim (fun he => he ▸ hhead) (htail _))
    (fun _ h => absurd h List.not_mem_nil)
    (fun _ _ hhead htail _ h => (List.mem_cons.1 h).elim (fun he => he ▸ hhead) (htail _))
    (fun _ _ h => h) item

mutual

/-- How deep arrays and objects are nested. -/
def depth : Item ν → Nat
  | .array child => depthItems child + 1
  | .object child => depthMembers child + 1
  | _ => 0

def depthItems : List (Item ν) → Nat
  | [] => 0
  | item :: rest => max item.depth (depthItems rest)

def depthMembers : List (Str × Item ν) → Nat
  | [] => 0
  | (_, item) :: rest => max item.depth (depthMembers rest)

end

end Item
end Json
end CFunction
