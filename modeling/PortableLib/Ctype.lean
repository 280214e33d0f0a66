import PortableLib.Gstring.Escape

/-! The classes of `ctype.h` in the C locale, for a `char`; none holds of a negative one. -/

namespace PortableLib.Ctype
open Gstring.Escape (isdigit)

def isupper (c : UInt8) : Bool := 0x41 ≤ c && c ≤ 0x5a

def islower (c : UInt8) : Bool := 0x61 ≤ c && c ≤ 0x7a

def isalpha (c : UInt8) : Bool := isupper c || islower c

def isalnum (c : UInt8) : Bool := isdigit c || isalpha c

def tolower (c : UInt8) : UInt8 := if isupper c then c + 0x20 else c

def toupper (c : UInt8) : UInt8 := if islower c then c - 0x20 else c

end PortableLib.Ctype
