import OutOfOrder.Text.Uppercase.Table

/-!
Full upper-casing: one character may become several. ASCII letters never meet the table.
-/

set_option autoImplicit false

namespace OutOfOrder.Text

def upper (c : Char) : List Char :=
  if c.toNat < 128 then [c.toUpper]
  else match caseSequences.lookup c.toNat with
    | some image => image.map Char.ofNat
    | none =>
      match caseRuns.findSome? (·.image? c.toNat) with
      | some image => [Char.ofNat image]
      | none => [c]

def uppercase (cs : List Char) : List Char := cs.flatMap upper

theorem upper_ascii {c : Char} (h : c.toNat < 128) : upper c = [c.toUpper] := by simp [upper, h]

@[simp] theorem uppercase_nil : uppercase [] = [] := rfl

@[simp] theorem uppercase_append (cs ds : List Char) :
    uppercase (cs ++ ds) = uppercase cs ++ uppercase ds := by simp [uppercase]

end OutOfOrder.Text
