/-!
Columns of text: padded with blanks to a width counted in characters, never cut.
-/

set_option autoImplicit false

namespace OutOfOrder.Text

def padding (width : Nat) (text : String) : String :=
  String.ofList (List.replicate (width - text.length) ' ')

def padRight (width : Nat) (text : String) : String := text ++ padding width text

def padLeft (width : Nat) (text : String) : String := padding width text ++ text

end OutOfOrder.Text
