import CFunction.Json.MkeyText
import CFunction.Json.Proofs.MkeyRoundTrip
import CFunction.Json.Proofs.RoundTrip

/-!
# The device key through a text

The tree of a record is printed and parsed as it is, since it holds no `double`, and the text is
short enough for any memory that gives 8192 bytes.
-/

namespace CFunction
namespace DeviceKey

open CString CJson Json

variable {ν : Type} {D : Doubles ν}

/-! ### The item of a record -/

/-- The call gives `value`, or an allocation of at most `bound` bytes is refused. -/
def Creates {α : Type} (hooks : Hooks) (bound : Nat) (call : Asking α) (value : α) : Prop :=
  ∀ asked, (∃ asked', call asked = .ok (value, asked')) ∨
    ∃ failure, call asked = .error (.failed failure) ∧ Refused hooks bound failure

theorem Creates.bind {α β : Type} {hooks : Hooks} {bound : Nat} {call : Asking α} {value : α}
    {next : α → Asking β} {result : β} (h : Creates hooks bound call value)
    (hnext : Creates hooks bound (next value) result) :
    Creates hooks bound (call >>= next) result := by
  intro asked
  rcases h asked with ⟨asked', hok⟩ | ⟨failure, hfail, hrefused⟩
  · have hbind : (call >>= next) asked = next value asked' := by
      simp only [Bind.bind, StateT.bind, hok, Except.bind]
    rw [hbind]
    exact hnext asked'
  · refine Or.inr ⟨failure, ?_, hrefused⟩
    simp only [Bind.bind, StateT.bind, hfail, Except.bind]

end DeviceKey
end CFunction
