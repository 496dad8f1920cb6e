import Insomnilog.Formatter.Render
import Insomnilog.Lib.Pieces

/-! Substitution of arguments into a format string. -/
namespace Insomnilog.Formatter
open Pieces Wire

variable {floats : FloatText} {fmtStr p : Text} {ps : List Text}

/-- What takes the place of the placeholder `i`: the text of that argument, or the placeholder
itself if there is none. -/
def replacement (floats : FloatText) (args : List DecodedArg) (i : ℕ) : Text :=
  match args[i]? with
  | some arg => display floats arg
  | none => ['{', '}']

/-- The pieces of a format string with the replacements between them. -/
def substituted (floats : FloatText) (args : List DecodedArg) (p : Text) (ps : List Text) : Text :=
  p ++ ps.zipIdx.flatMap fun q => replacement floats args q.2 ++ q.1

/-- A placeholder takes the first argument, or stays when there is none. -/
theorem substituted_separator (floats : FloatText) (args : List DecodedArg) (p : Text)
    (ps : List Text) : substituted floats args [] (p :: ps) =
      replacement floats args 0 ++ substituted floats args.tail p ps := by
  have hshift (i : ℕ) : replacement floats args (i + 1) = replacement floats args.tail i := by
    cases args <;> rfl
  calc substituted floats args [] (p :: ps)
      = replacement floats args 0 ++ p ++
          (ps.zipIdx 1).flatMap fun q => replacement floats args q.2 ++ q.1 := rfl
    _ = replacement floats args 0 ++ p ++
          ps.zipIdx.flatMap fun q => replacement floats args (q.2 + 1) ++ q.1 := by
        rw [List.zipIdx_succ, List.flatMap_map]
    _ = replacement floats args 0 ++ substituted floats args.tail p ps := by
        simp only [hshift, substituted, List.append_assoc]

/-- The scanner agrees with cutting the format string at its placeholders. -/
theorem formatMessage_cut (h : Cut '{' '}' fmtStr p ps) (buf : Text) (args : List DecodedArg) :
    formatMessage floats buf fmtStr args = buf ++ substituted floats args p ps := by
  have hne : ('{' : Char) ≠ '}' := by decide
  fun_induction formatMessage floats buf fmtStr args generalizing p ps with
  | case1 buf args =>
    obtain ⟨rfl, rfl⟩ := h.of_nil
    exact (List.append_nil buf).symm
  | case2 buf chars arg args ih =>
    obtain ⟨q, qs, rfl, rfl, hq⟩ := h.of_separator hne
    rw [ih hq, substituted_separator, List.append_assoc]
    rfl
  | case3 buf chars ih =>
    obtain ⟨q, qs, rfl, rfl, hq⟩ := h.of_separator hne
    rw [ih hq, substituted_separator, List.append_assoc]
    rfl
  | case4 buf c chars args hsome hnone ih =>
    have hc : c = '{' → chars.head? ≠ some '}' := by
      intro hc hhead
      obtain ⟨rest, hrest⟩ := List.head?_eq_some_iff.mp hhead
      cases args with
      | nil => exact hnone rest rfl hc hrest
      | cons arg args => exact hsome rest arg args rfl hc hrest
    obtain ⟨q, rfl, hq⟩ := h.of_cons hc
    rw [ih hq, List.append_assoc]
    rfl

/-- Every format string is cut in one way at its placeholders, and the message is its pieces
with the arguments, in order, between them. -/
theorem message_substitutes_once (floats : FloatText) (fmtStr : Text) (args : List DecodedArg) :
    ∃ p ps, Cut '{' '}' fmtStr p ps ∧
      (∀ p' ps', Cut '{' '}' fmtStr p' ps' → p' = p ∧ ps' = ps) ∧
      ∀ buf, formatMessage floats buf fmtStr args = buf ++ substituted floats args p ps := by
  obtain ⟨p, ps, hcut⟩ := exists_cut '{' '}' fmtStr
  refine ⟨p, ps, hcut, fun p' ps' hcut' => hcut.unique (by decide) hcut', fun buf => ?_⟩
  exact formatMessage_cut hcut buf args

example : formatMessage ⟨fun _ => [], fun _ => []⟩ [] "{{}} {} {}".toList
    [.str "{}", .i8 (-7)] = "{{}} -7 {}".toList := by decide

end Insomnilog.Formatter
