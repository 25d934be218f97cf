/-
Names that are put together from fixed parts and numbers.
-/
import Mathlib.Logic.Function.Basic

namespace Prusti.Lib

theorem toList_toString (number : Nat) : (toString number).toList = Nat.toDigits 10 number :=
  Nat.toList_repr

theorem toString_injective : Function.Injective (toString : Nat → String) := by
  intro left right heq
  have hdigits := congrArg String.toList heq
  rw [toList_toString, toList_toString] at hdigits
  rw [← Nat.ofDigitChars_ten_toDigits (n := left), hdigits, Nat.ofDigitChars_ten_toDigits]

theorem append_left_injective (first : String) : Function.Injective (first ++ ·) :=
  fun _ _ => (String.append_right_inj first).mp

theorem append_right_injective (last : String) : Function.Injective (· ++ last) :=
  fun _ _ => (String.append_left_inj last).mp

/-- The first letter of a name that begins with a fixed part. -/
theorem head?_append {first rest : String} {letter : Char} (h : first.toList.head? = some letter) :
    (first ++ rest).toList.head? = some letter := by
  rw [String.toList_append, List.head?_append, h]
  rfl

/-- The number at the end of a name is determined by it, if a letter stands before it
that is no digit. -/
theorem number_injective (first first' : String) (letter : Char) {number number' : Nat}
    (hletter : letter.isDigit = false)
    (h : (first ++ toString number).toList = (first' ++ toString number').toList)
    (hfirst : first.toList.getLast? = some letter)
    (hfirst' : first'.toList.getLast? = some letter) : number = number' := by
  have hdigits : ∀ number : Nat, ∀ first : String, first.toList.getLast? = some letter →
      ((first ++ toString number).toList.reverse.takeWhile fun c => c != letter) =
        (toString number).toList.reverse := by
    intro number first hlast
    obtain ⟨rest, hrest⟩ := List.getLast?_eq_some_iff.mp hlast
    have hne : ∀ c ∈ (toString number).toList.reverse, (c != letter) = true := by
      intro c hc
      rw [List.mem_reverse, toList_toString] at hc
      have hdigit := Nat.isDigit_of_mem_toDigits (by decide) (by decide) hc
      rw [bne_iff_ne]
      rintro rfl
      rw [hletter] at hdigit
      cases hdigit
    rw [String.toList_append, hrest, List.reverse_append, List.reverse_append,
      List.takeWhile_append_of_pos hne]
    simp
  have heq := congrArg (fun list => list.reverse.takeWhile fun c => c != letter) h
  simp only [hdigits number first hfirst, hdigits number' first' hfirst'] at heq
  exact toString_injective (String.toList_inj.mp (List.reverse_inj.mp heq))

end Prusti.Lib
