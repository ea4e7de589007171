/-! The two shapes of names.

Variants are capitalized and fields are in camel case; both are made of ASCII
letters and digits only. -/
namespace OpenVariants.Text

def isUpper (c : Char) : Bool := 'A' ≤ c && c ≤ 'Z'

def isLower (c : Char) : Bool := 'a' ≤ c && c ≤ 'z'

def isDigit (c : Char) : Bool := '0' ≤ c && c ≤ '9'

def isLetterOrDigit (c : Char) : Bool := isUpper c || isLower c || isDigit c

/-- A first character of the given class, then letters and digits. -/
def hasShape (first : Char → Bool) (name : String) : Bool :=
  match name.toList with
  | [] => false
  | c :: rest => first c && rest.all isLetterOrDigit

/-- Such as `Circle`, `IntExp` and `V2`. -/
def isCapitalized (name : String) : Bool := hasShape isUpper name

/-- Such as `radius`, `ifTrue` and `x1`. -/
def isCamelCase (name : String) : Bool := hasShape isLower name

end OpenVariants.Text
