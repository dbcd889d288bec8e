import OutOfOrder.Text.Blank
import OutOfOrder.Text.Uppercase

/-!
The normal form of a line: upper case, every run of blanks a single one, and no blank beside a comma or
a parenthesis. So `add  r1, r2 ,r3` becomes `ADD R1,R2,R3`.
-/

set_option autoImplicit false

namespace OutOfOrder.Assembly

open Text

def isSeparator (c : Char) : Bool := c == ',' || c == '(' || c == ')'

/-- Makes every run of blanks one blank; `inRun` tells that a blank has just been passed. -/
def squeeze (inRun : Bool) : List Char → List Char
  | [] => []
  | c :: cs =>
    if isBlank c then (if inRun then squeeze true cs else ' ' :: squeeze true cs)
    else c :: squeeze false cs

/-- Drops the blanks on both sides of a separator; `after` tells that one has just been passed. -/
def tighten (after : Bool) : List Char → List Char
  | [] => []
  | c :: cs =>
    if isBlank c && (after || (cs.dropWhile isBlank).head?.any isSeparator) then tighten after cs
    else c :: tighten (isSeparator c) cs

def normalForm (line : List Char) : List Char := tighten false (squeeze false (uppercase line))

end OutOfOrder.Assembly
