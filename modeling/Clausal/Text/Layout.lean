namespace Clausal.Text

/-- The text with blanks in front of it up to a given width. -/
def padLeft (width : Nat) (text : String) : String :=
  String.ofList (List.replicate (width - text.length) ' ') ++ text

/-- The text with blanks behind it up to a given width. -/
def padRight (width : Nat) (text : String) : String :=
  text ++ String.ofList (List.replicate (width - text.length) ' ')

/-- The whole number nearest to a quotient. A half goes to the even neighbour,
    and a quotient by 0 is 0. -/
def roundQuotient (numerator denominator : Nat) : Nat :=
  if denominator = 0 then 0
  else
    let quotient := numerator / denominator
    let twice := 2 * (numerator % denominator)
    if denominator < twice ∨ (denominator = twice ∧ quotient % 2 = 1) then quotient + 1
    else quotient

/-- A quotient in decimal with a fixed number of places behind the point. -/
def fixedPoint (places numerator denominator : Nat) : String :=
  let scale := Nat.pow 10 places
  let scaled := roundQuotient (numerator * scale) denominator
  let fraction := toString (scaled % scale)
  let zeros := String.ofList (List.replicate (places - fraction.length) '0')
  toString (scaled / scale) ++ (if places = 0 then "" else "." ++ zeros ++ fraction)

end Clausal.Text
