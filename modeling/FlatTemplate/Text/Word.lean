import FlatTemplate.Text.Letter
import FlatTemplate.Text.Numeral

namespace FlatTemplate.Text

def isWordStart (c : Char) : Bool := isLetter c || c = '_'

def isWordChar (c : Char) : Bool := isLetter c || isNumeral c || c = '_'

end FlatTemplate.Text
